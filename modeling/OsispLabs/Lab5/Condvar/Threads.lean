import OsispLabs.Lab5.Condvar.Queue
import OsispLabs.Lib.Counting
import Mathlib.Tactic.Simps.Basic

/-!
# The threads of `lab5_2.c`

Producers and consumers guarded by `queue.mutex` and the condition variables `queue.empty` and
`queue.full`, with the main thread in its two resizes. A wait releases the mutex and ends by a
signal or spuriously; either way the thread acquires the mutex again before it goes on.
-/
namespace OsispLabs.Lab5.Condvar
open Lib

/-- Where a producer stands, with the message it carries: `testing` is the `while` test with the
mutex held, and `waiting`, `signalled` and `spurious` lie inside `pthread_cond_wait`. -/
inductive ProducerPc (α : Type*) where
  | outside
  | testing (msg : α)
  | waiting (msg : α)
  | signalled (msg : α)
  | spurious (msg : α)
  | inserted
  | leaving
  deriving DecidableEq, Repr

inductive ConsumerPc where
  | outside
  | testing
  | waiting
  | signalled
  | spurious
  | taken
  | notified
  | leaving
  deriving DecidableEq, Repr

/-- Where the main thread stands: in its menu, in `incremSize` (from `growing`) or in
`discrSize` (`shrinking`). -/
inductive MainPc where
  | menu
  | growing
  | grown
  | shifting
  | shrinking
  | leaving
  deriving DecidableEq, Repr

/-- The queue with its mutex and the position of every thread. -/
structure State (P C α : Type*) where
  queue : Queue α
  mutex : Bool
  producer : P → ProducerPc α
  consumer : C → ConsumerPc
  main : MainPc

/-- One shared operation. A `pthread_cond_signal` names the waiter it unblocks, if there is one;
`wakeProducer` and `wakeConsumer` are spurious wake-ups. -/
inductive Action (P C α : Type*) where
  | produce (i : P) (msg : α)
  | producer (i : P)
  | signalFull (i : P) (woken : Option C)
  | wakeProducer (i : P)
  | consumer (j : C)
  | signalEmpty (j : C) (woken : Option P)
  | wakeConsumer (j : C)
  | incremSize
  | discrSize
  | main
  | signalGrown (woken : Option P)
  deriving DecidableEq, Repr

variable {P C α : Type*} [DecidableEq P] [DecidableEq C]

def ProducerPc.isWaiting : ProducerPc α → Bool
  | .waiting _ => true
  | .outside | .testing _ | .signalled _ | .spurious _ | .inserted | .leaving => false

namespace State

/-- `init_queue`, with every thread before its first lock. -/
def start : State P C α := ⟨.init_queue, false, fun _ => .outside, fun _ => .outside, .menu⟩

@[simps -fullyApplied queue mutex consumer main]
def setProducer (s : State P C α) (i : P) (pc : ProducerPc α) : State P C α :=
  { s with producer := Function.update s.producer i pc }

@[simps -fullyApplied queue mutex producer main]
def setConsumer (s : State P C α) (j : C) (pc : ConsumerPc) : State P C α :=
  { s with consumer := Function.update s.consumer j pc }

/-- `pthread_mutex_lock`, after which the thread stands as in `t`. -/
def lock (s t : State P C α) : Option (State P C α) :=
  if s.mutex then none else some { t with mutex := true }

/-- The loop body of `workProducer` between its signals. -/
def stepProducer (s : State P C α) (i : P) : Option (State P C α) :=
  match s.producer i with
  | .testing msg =>
    if s.queue.sizeQueue ≤ s.queue.countMsg then
      some { s.setProducer i (.waiting msg) with mutex := false }
    else some { s.setProducer i .inserted with queue := s.queue.insert msg }
  | .signalled msg => s.lock (s.setProducer i (.testing msg))
  | .spurious msg => s.lock (s.setProducer i (.testing msg))
  | .leaving => some { s.setProducer i .outside with mutex := false }
  | .outside | .waiting _ | .inserted => none

/-- The loop body of `workConsumer` between its signals; `--countMsg` follows the signal. -/
def stepConsumer (s : State P C α) (j : C) : Option (State P C α) :=
  match s.consumer j with
  | .outside => s.lock (s.setConsumer j .testing)
  | .testing =>
    if s.queue.countMsg = 0 then some { s.setConsumer j .waiting with mutex := false }
    else some { s.setConsumer j .taken with queue := s.queue.takeHead.2 }
  | .signalled => s.lock (s.setConsumer j .testing)
  | .spurious => s.lock (s.setConsumer j .testing)
  | .notified => some { s.setConsumer j .leaving with queue := s.queue.decrement }
  | .leaving => some { s.setConsumer j .outside with mutex := false }
  | .waiting | .taken => none

/-- The next operation of `incremSize` or `discrSize`, except the signal. -/
def stepMain (s : State P C α) : Option (State P C α) :=
  match s.main with
  | .growing => some { s with queue := s.queue.enlarge, main := .grown }
  | .shifting => some { s with queue := s.queue.openGap, main := .leaving }
  | .shrinking => some { s with queue := s.queue.discrSize, main := .leaving }
  | .leaving => some { s with mutex := false, main := .menu }
  | .menu | .grown => none

variable [Fintype P] [Fintype C]

/-- `pthread_cond_signal(&queue.empty)`: it unblocks a waiting producer, or nothing when no
producer waits. -/
def wakeEmpty (s : State P C α) : Option P → Option (State P C α)
  | some i =>
    match s.producer i with
    | .waiting msg => some (s.setProducer i (.signalled msg))
    | _ => none
  | none => if ∀ i, (s.producer i).isWaiting = false then some s else none

/-- `pthread_cond_signal(&queue.full)` -/
def wakeFull (s : State P C α) : Option C → Option (State P C α)
  | some j => if s.consumer j = .waiting then some (s.setConsumer j .signalled) else none
  | none => if ∀ j, s.consumer j ≠ .waiting then some s else none

def next (s : State P C α) : Action P C α → Option (State P C α)
  | .produce i msg =>
    match s.producer i with
    | .outside => s.lock (s.setProducer i (.testing msg))
    | _ => none
  | .producer i => s.stepProducer i
  | .signalFull i woken =>
    match s.producer i with
    | .inserted => (s.setProducer i .leaving).wakeFull woken
    | _ => none
  | .wakeProducer i =>
    match s.producer i with
    | .waiting msg => some (s.setProducer i (.spurious msg))
    | _ => none
  | .consumer j => s.stepConsumer j
  | .signalEmpty j woken =>
    if s.consumer j = .taken then (s.setConsumer j .notified).wakeEmpty woken else none
  | .wakeConsumer j =>
    if s.consumer j = .waiting then some (s.setConsumer j .spurious) else none
  | .incremSize => if s.main = .menu then s.lock { s with main := .growing } else none
  | .discrSize => if s.main = .menu then s.lock { s with main := .shrinking } else none
  | .main => s.stepMain
  | .signalGrown woken =>
    if s.main = .grown then wakeEmpty { s with main := .shifting } woken else none

/-- What each operation does and when it is enabled. The lines that insert a message, read the slot
at `head`, enlarge the block, open the gap or shrink the ring are one operation each; a signal has
one more constructor for the case that nobody waits. -/
inductive Step (s : State P C α) : Action P C α → State P C α → Prop
  | lockProducer (i : P) (msg : α) (hpc : s.producer i = .outside) (hfree : s.mutex = false) :
    Step s (.produce i msg) { s.setProducer i (.testing msg) with mutex := true }
  | sleepProducer (i : P) (msg : α) (hpc : s.producer i = .testing msg)
      (hfull : s.queue.sizeQueue ≤ s.queue.countMsg) :
    Step s (.producer i) { s.setProducer i (.waiting msg) with mutex := false }
  | insert (i : P) (msg : α) (hpc : s.producer i = .testing msg)
      (hroom : s.queue.countMsg < s.queue.sizeQueue) :
    Step s (.producer i) { s.setProducer i .inserted with queue := s.queue.insert msg }
  | relockSignalled (i : P) (msg : α) (hpc : s.producer i = .signalled msg)
      (hfree : s.mutex = false) :
    Step s (.producer i) { s.setProducer i (.testing msg) with mutex := true }
  | relockSpurious (i : P) (msg : α) (hpc : s.producer i = .spurious msg)
      (hfree : s.mutex = false) :
    Step s (.producer i) { s.setProducer i (.testing msg) with mutex := true }
  | signalFull (i : P) (j : C) (hpc : s.producer i = .inserted) (hwait : s.consumer j = .waiting) :
    Step s (.signalFull i (some j)) ((s.setProducer i .leaving).setConsumer j .signalled)
  | signalFullNone (i : P) (hpc : s.producer i = .inserted)
      (hnone : ∀ j, s.consumer j ≠ .waiting) :
    Step s (.signalFull i none) (s.setProducer i .leaving)
  | unlockProducer (i : P) (hpc : s.producer i = .leaving) :
    Step s (.producer i) { s.setProducer i .outside with mutex := false }
  | wakeProducer (i : P) (msg : α) (hpc : s.producer i = .waiting msg) :
    Step s (.wakeProducer i) (s.setProducer i (.spurious msg))
  | lockConsumer (j : C) (hpc : s.consumer j = .outside) (hfree : s.mutex = false) :
    Step s (.consumer j) { s.setConsumer j .testing with mutex := true }
  | sleepConsumer (j : C) (hpc : s.consumer j = .testing) (hempty : s.queue.countMsg = 0) :
    Step s (.consumer j) { s.setConsumer j .waiting with mutex := false }
  | take (j : C) (hpc : s.consumer j = .testing) (hpos : 0 < s.queue.countMsg) :
    Step s (.consumer j) { s.setConsumer j .taken with queue := s.queue.takeHead.2 }
  | relockConsumer (j : C) (hpc : s.consumer j = .signalled ∨ s.consumer j = .spurious)
      (hfree : s.mutex = false) :
    Step s (.consumer j) { s.setConsumer j .testing with mutex := true }
  | signalEmpty (j : C) (i : P) (msg : α) (hpc : s.consumer j = .taken)
      (hwait : s.producer i = .waiting msg) :
    Step s (.signalEmpty j (some i)) ((s.setConsumer j .notified).setProducer i (.signalled msg))
  | signalEmptyNone (j : C) (hpc : s.consumer j = .taken)
      (hnone : ∀ i, (s.producer i).isWaiting = false) :
    Step s (.signalEmpty j none) (s.setConsumer j .notified)
  | decrement (j : C) (hpc : s.consumer j = .notified) :
    Step s (.consumer j) { s.setConsumer j .leaving with queue := s.queue.decrement }
  | unlockConsumer (j : C) (hpc : s.consumer j = .leaving) :
    Step s (.consumer j) { s.setConsumer j .outside with mutex := false }
  | wakeConsumer (j : C) (hpc : s.consumer j = .waiting) :
    Step s (.wakeConsumer j) (s.setConsumer j .spurious)
  | lockGrow (hpc : s.main = .menu) (hfree : s.mutex = false) :
    Step s .incremSize { s with mutex := true, main := .growing }
  | enlarge (hpc : s.main = .growing) :
    Step s .main { s with queue := s.queue.enlarge, main := .grown }
  | signalGrown (i : P) (msg : α) (hpc : s.main = .grown) (hwait : s.producer i = .waiting msg) :
    Step s (.signalGrown (some i)) (setProducer { s with main := .shifting } i (.signalled msg))
  | signalGrownNone (hpc : s.main = .grown) (hnone : ∀ i, (s.producer i).isWaiting = false) :
    Step s (.signalGrown none) { s with main := .shifting }
  | openGap (hpc : s.main = .shifting) :
    Step s .main { s with queue := s.queue.openGap, main := .leaving }
  | lockShrink (hpc : s.main = .menu) (hfree : s.mutex = false) :
    Step s .discrSize { s with mutex := true, main := .shrinking }
  | shrink (hpc : s.main = .shrinking) :
    Step s .main { s with queue := s.queue.discrSize, main := .leaving }
  | unlockMain (hpc : s.main = .leaving) : Step s .main { s with mutex := false, main := .menu }

omit [DecidableEq P] [DecidableEq C] [Fintype P] [Fintype C] in
theorem lock_eq_some {s t u : State P C α} (h : s.lock t = some u) :
    s.mutex = false ∧ u = { t with mutex := true } := by
  unfold lock at h
  split at h
  · cases h
  · exact ⟨by simpa using ‹¬ s.mutex = true›, (Option.some.inj h).symm⟩

omit [Fintype P] [Fintype C] in
theorem stepProducer_step {s t : State P C α} {i : P} (h : s.stepProducer i = some t) :
    Step s (.producer i) t := by
  unfold stepProducer at h
  split at h
  · split at h
    · obtain rfl := Option.some.inj h
      exact .sleepProducer i _ ‹_› ‹_›
    · obtain rfl := Option.some.inj h
      exact .insert i _ ‹_› (Nat.lt_of_not_le ‹_›)
  · obtain ⟨hfree, rfl⟩ := lock_eq_some h
    exact .relockSignalled i _ ‹_› hfree
  · obtain ⟨hfree, rfl⟩ := lock_eq_some h
    exact .relockSpurious i _ ‹_› hfree
  · obtain rfl := Option.some.inj h
    exact .unlockProducer i ‹_›
  all_goals cases h

omit [Fintype P] [Fintype C] in
theorem stepConsumer_step {s t : State P C α} {j : C} (h : s.stepConsumer j = some t) :
    Step s (.consumer j) t := by
  unfold stepConsumer at h
  split at h
  · obtain ⟨hfree, rfl⟩ := lock_eq_some h
    exact .lockConsumer j ‹_› hfree
  · split at h
    · obtain rfl := Option.some.inj h
      exact .sleepConsumer j ‹_› ‹_›
    · obtain rfl := Option.some.inj h
      exact .take j ‹_› (Nat.pos_of_ne_zero ‹_›)
  · obtain ⟨hfree, rfl⟩ := lock_eq_some h
    exact .relockConsumer j (.inl ‹_›) hfree
  · obtain ⟨hfree, rfl⟩ := lock_eq_some h
    exact .relockConsumer j (.inr ‹_›) hfree
  · obtain rfl := Option.some.inj h
    exact .decrement j ‹_›
  · obtain rfl := Option.some.inj h
    exact .unlockConsumer j ‹_›
  all_goals cases h

omit [Fintype P] [Fintype C] in
theorem stepMain_step {s t : State P C α} (h : s.stepMain = some t) : Step s .main t := by
  unfold stepMain at h
  split at h
  · obtain rfl := Option.some.inj h
    exact .enlarge ‹_›
  · obtain rfl := Option.some.inj h
    exact .openGap ‹_›
  · obtain rfl := Option.some.inj h
    exact .shrink ‹_›
  · obtain rfl := Option.some.inj h
    exact .unlockMain ‹_›
  all_goals cases h

omit [DecidableEq C] [Fintype C] in
theorem wakeEmpty_some {s t : State P C α} {i : P} (h : s.wakeEmpty (some i) = some t) :
    ∃ msg, s.producer i = .waiting msg ∧ t = s.setProducer i (.signalled msg) := by
  simp only [wakeEmpty] at h
  split at h
  · exact ⟨_, ‹_›, (Option.some.inj h).symm⟩
  · cases h

omit [DecidableEq C] [Fintype C] in
theorem wakeEmpty_none {s t : State P C α} (h : s.wakeEmpty none = some t) :
    (∀ i, (s.producer i).isWaiting = false) ∧ t = s := by
  simp only [wakeEmpty] at h
  split at h
  · exact ⟨‹_›, (Option.some.inj h).symm⟩
  · cases h

omit [DecidableEq P] [Fintype P] in
theorem wakeFull_some {s t : State P C α} {j : C} (h : s.wakeFull (some j) = some t) :
    s.consumer j = .waiting ∧ t = s.setConsumer j .signalled := by
  simp only [wakeFull] at h
  split at h
  · exact ⟨‹_›, (Option.some.inj h).symm⟩
  · cases h

omit [DecidableEq P] [Fintype P] in
theorem wakeFull_none {s t : State P C α} (h : s.wakeFull none = some t) :
    (∀ j, s.consumer j ≠ .waiting) ∧ t = s := by
  simp only [wakeFull] at h
  split at h
  · exact ⟨‹_›, (Option.some.inj h).symm⟩
  · cases h

/-- Every computed step is one of the operations. -/
theorem next_step {s t : State P C α} {a : Action P C α} (h : s.next a = some t) : Step s a t := by
  cases a with
  | produce i msg =>
    simp only [next] at h
    split at h
    · obtain ⟨hfree, rfl⟩ := lock_eq_some h
      exact .lockProducer i msg ‹_› hfree
    · cases h
  | producer i => exact stepProducer_step h
  | signalFull i woken =>
    simp only [next] at h
    split at h
    · cases woken with
      | some j =>
        obtain ⟨hwait, rfl⟩ := wakeFull_some h
        exact .signalFull i j ‹_› hwait
      | none =>
        obtain ⟨hnone, rfl⟩ := wakeFull_none h
        exact .signalFullNone i ‹_› hnone
    · cases h
  | wakeProducer i =>
    simp only [next] at h
    split at h
    · obtain rfl := Option.some.inj h
      exact .wakeProducer i _ ‹_›
    · cases h
  | consumer j => exact stepConsumer_step h
  | signalEmpty j woken =>
    simp only [next] at h
    split at h
    · cases woken with
      | some i =>
        obtain ⟨msg, hwait, rfl⟩ := wakeEmpty_some h
        exact .signalEmpty j i msg ‹_› hwait
      | none =>
        obtain ⟨hnone, rfl⟩ := wakeEmpty_none h
        exact .signalEmptyNone j ‹_› hnone
    · cases h
  | wakeConsumer j =>
    simp only [next] at h
    split at h
    · obtain rfl := Option.some.inj h
      exact .wakeConsumer j ‹_›
    · cases h
  | incremSize =>
    simp only [next] at h
    split at h
    · obtain ⟨hfree, rfl⟩ := lock_eq_some h
      exact .lockGrow ‹_› hfree
    · cases h
  | discrSize =>
    simp only [next] at h
    split at h
    · obtain ⟨hfree, rfl⟩ := lock_eq_some h
      exact .lockShrink ‹_› hfree
    · cases h
  | main => exact stepMain_step h
  | signalGrown woken =>
    simp only [next] at h
    split at h
    · cases woken with
      | some i =>
        obtain ⟨msg, hwait, rfl⟩ := wakeEmpty_some h
        exact .signalGrown i msg ‹_› hwait
      | none =>
        obtain ⟨hnone, rfl⟩ := wakeEmpty_none h
        exact .signalGrownNone ‹_› hnone
    · cases h

end State

end OsispLabs.Lab5.Condvar
