import OsispLabs.Lab5.RingList
import OsispLabs.Lib.Execution
import OsispLabs.Lib.Counting
import Mathlib.Tactic.Simps.Basic

/-!
# The threads of `lab5_1.c`

Producers and consumers guarded by the semaphores `empty` and `full` and by `queue.mutex`, and
the main thread with the two resizes. A thread stops after every shared operation, so any other
thread can move between its `sem_wait`, its lock, its work on the ring and its `sem_post`.
-/
namespace OsispLabs.Lab5.Semaphore
open Lib

/-- Where a producer stands in its loop, with the message it carries. -/
inductive ProducerPc (α : Type*) where
  | outside
  | token (msg : α)
  | locked (msg : α)
  | written
  | posted
  deriving DecidableEq, Repr

inductive ConsumerPc where
  | outside
  | token
  | locked
  | taken
  | posted
  deriving DecidableEq, Repr

/-- Where the main thread stands: in its menu, in `incremSize` (from `growing`) or in
`discrSize` (from `testing`). -/
inductive MainPc where
  | menu
  | growing
  | grown
  | shifting
  | testing
  | shrinking
  | waiting
  | leaving
  deriving DecidableEq, Repr

/-- The queue with its semaphores, the position of every thread, and the two histories. -/
structure State (P C α : Type*) where
  ring : Ring α
  empty : ℕ
  full : ℕ
  mutex : Bool
  producer : P → ProducerPc α
  consumer : C → ConsumerPc
  main : MainPc
  produced : List α
  consumed : List (Slot α)

/-- One shared operation: `produce` is `generateMessage` and the `sem_wait` on `empty`. -/
inductive Action (P C α : Type*) where
  | produce (i : P) (msg : α)
  | producer (i : P)
  | consumer (j : C)
  | incremSize
  | discrSize
  | main
  deriving DecidableEq, Repr

variable {P C α : Type*} [DecidableEq P] [DecidableEq C]

namespace State

/-- `init_queue` for a queue of `n` slots; the program has `n = 10`. -/
def start (n : ℕ) : State P C α :=
  ⟨.init n, n, 0, false, fun _ => .outside, fun _ => .outside, .menu, [], []⟩

@[simps -fullyApplied ring empty full mutex consumer main produced consumed]
def setProducer (s : State P C α) (i : P) (pc : ProducerPc α) : State P C α :=
  { s with producer := Function.update s.producer i pc }

@[simps -fullyApplied ring empty full mutex producer main produced consumed]
def setConsumer (s : State P C α) (j : C) (pc : ConsumerPc) : State P C α :=
  { s with consumer := Function.update s.consumer j pc }

/-- The loop body of `workProducer` after its `sem_wait`. -/
def stepProducer (s : State P C α) (i : P) : Option (State P C α) :=
  match s.producer i with
  | .outside => none
  | .token msg =>
    if s.mutex then none else some { s.setProducer i (.locked msg) with mutex := true }
  | .locked msg => some { s.setProducer i .written with
      ring := s.ring.put msg
      produced := s.produced ++ [msg] }
  | .written => some { s.setProducer i .posted with full := s.full + 1 }
  | .posted => some { s.setProducer i .outside with mutex := false }

/-- The loop body of `workConsumer`. -/
def stepConsumer (s : State P C α) (j : C) : Option (State P C α) :=
  match s.consumer j with
  | .outside => if s.full = 0 then none else some { s.setConsumer j .token with full := s.full - 1 }
  | .token => if s.mutex then none else some { s.setConsumer j .locked with mutex := true }
  | .locked => some { s.setConsumer j .taken with
      ring := s.ring.take.2
      consumed := s.consumed ++ [s.ring.take.1] }
  | .taken => some { s.setConsumer j .posted with empty := s.empty + 1 }
  | .posted => some { s.setConsumer j .outside with mutex := false }

/-- The shift of `incremSize`: the slots above `tail` move up and `tail` follows them. -/
def openGap (r : Ring α) : Ring α :=
  if r.tail < r.head then
    { r with buffer := r.buffer.shiftUp r.tail (r.sizeQueue - 1), tail := r.tail + 1 }
  else r

/-- The next operation of `incremSize` or `discrSize`; `sem_wait(&queue.empty)` is made while
the mutex is held. -/
def stepMain (s : State P C α) : Option (State P C α) :=
  match s.main with
  | .menu => none
  | .growing => some { s with ring := s.ring.grow, main := .grown }
  | .grown => some { s with empty := s.empty + 1, main := .shifting }
  | .shifting => some { s with ring := openGap s.ring, main := .leaving }
  | .testing =>
    if s.full < s.ring.sizeQueue then some { s with main := .shrinking }
    else some { s with main := .leaving }
  | .shrinking => some { s with ring := s.ring.shrink, main := .waiting }
  | .waiting => if s.empty = 0 then none else some { s with empty := s.empty - 1, main := .leaving }
  | .leaving => some { s with mutex := false, main := .menu }

def next (s : State P C α) : Action P C α → Option (State P C α)
  | .produce i msg =>
    match s.producer i with
    | .outside =>
      if s.empty = 0 then none
      else some { s.setProducer i (.token msg) with empty := s.empty - 1 }
    | _ => none
  | .producer i => s.stepProducer i
  | .consumer j => s.stepConsumer j
  | .incremSize =>
    if s.main = .menu ∧ s.mutex = false then some { s with main := .growing, mutex := true }
    else none
  | .discrSize =>
    if s.main = .menu ∧ s.mutex = false then some { s with main := .testing, mutex := true }
    else none
  | .main => s.stepMain

/-- What each operation does and when it is enabled. The lines of a critical section between the
lock and the post are one operation here (`Lines` takes them one by one), and so is each loop of a
resize. -/
inductive Step (s : State P C α) : Action P C α → State P C α → Prop
  | waitEmpty (i : P) (msg : α) (hpc : s.producer i = .outside) (hpos : 0 < s.empty) :
    Step s (.produce i msg) { s.setProducer i (.token msg) with empty := s.empty - 1 }
  | lockProducer (i : P) (msg : α) (hpc : s.producer i = .token msg) (hfree : s.mutex = false) :
    Step s (.producer i) { s.setProducer i (.locked msg) with mutex := true }
  | put (i : P) (msg : α) (hpc : s.producer i = .locked msg) :
    Step s (.producer i) { s.setProducer i .written with
      ring := s.ring.put msg
      produced := s.produced ++ [msg] }
  | postFull (i : P) (hpc : s.producer i = .written) :
    Step s (.producer i) { s.setProducer i .posted with full := s.full + 1 }
  | unlockProducer (i : P) (hpc : s.producer i = .posted) :
    Step s (.producer i) { s.setProducer i .outside with mutex := false }
  | waitFull (j : C) (hpc : s.consumer j = .outside) (hpos : 0 < s.full) :
    Step s (.consumer j) { s.setConsumer j .token with full := s.full - 1 }
  | lockConsumer (j : C) (hpc : s.consumer j = .token) (hfree : s.mutex = false) :
    Step s (.consumer j) { s.setConsumer j .locked with mutex := true }
  | take (j : C) (hpc : s.consumer j = .locked) :
    Step s (.consumer j) { s.setConsumer j .taken with
      ring := s.ring.take.2
      consumed := s.consumed ++ [s.ring.take.1] }
  | postEmpty (j : C) (hpc : s.consumer j = .taken) :
    Step s (.consumer j) { s.setConsumer j .posted with empty := s.empty + 1 }
  | unlockConsumer (j : C) (hpc : s.consumer j = .posted) :
    Step s (.consumer j) { s.setConsumer j .outside with mutex := false }
  | lockGrow (hpc : s.main = .menu) (hfree : s.mutex = false) :
    Step s .incremSize { s with main := .growing, mutex := true }
  | grow (hpc : s.main = .growing) : Step s .main { s with ring := s.ring.grow, main := .grown }
  | postGrown (hpc : s.main = .grown) :
    Step s .main { s with empty := s.empty + 1, main := .shifting }
  | shift (hpc : s.main = .shifting) :
    Step s .main { s with ring := openGap s.ring, main := .leaving }
  | lockShrink (hpc : s.main = .menu) (hfree : s.mutex = false) :
    Step s .discrSize { s with main := .testing, mutex := true }
  | decide (hpc : s.main = .testing) (hroom : s.full < s.ring.sizeQueue) :
    Step s .main { s with main := .shrinking }
  | decline (hpc : s.main = .testing) (hfull : s.ring.sizeQueue ≤ s.full) :
    Step s .main { s with main := .leaving }
  | shrink (hpc : s.main = .shrinking) :
    Step s .main { s with ring := s.ring.shrink, main := .waiting }
  | waitShrunk (hpc : s.main = .waiting) (hpos : 0 < s.empty) :
    Step s .main { s with empty := s.empty - 1, main := .leaving }
  | unlockMain (hpc : s.main = .leaving) : Step s .main { s with mutex := false, main := .menu }

theorem stepProducer_step {s t : State P C α} {i : P} (h : s.stepProducer i = some t) :
    Step s (.producer i) t := by
  unfold stepProducer at h
  split at h
  · cases h
  · split at h
    · cases h
    · obtain rfl := Option.some.inj h
      exact .lockProducer i _ ‹_› (by simpa using ‹¬ s.mutex = true›)
  all_goals obtain rfl := Option.some.inj h
  · exact .put i _ ‹_›
  · exact .postFull i ‹_›
  · exact .unlockProducer i ‹_›

theorem stepConsumer_step {s t : State P C α} {j : C} (h : s.stepConsumer j = some t) :
    Step s (.consumer j) t := by
  unfold stepConsumer at h
  split at h
  · split at h
    · cases h
    · obtain rfl := Option.some.inj h
      exact .waitFull j ‹_› (Nat.pos_of_ne_zero ‹_›)
  · split at h
    · cases h
    · obtain rfl := Option.some.inj h
      exact .lockConsumer j ‹_› (by simpa using ‹¬ s.mutex = true›)
  all_goals obtain rfl := Option.some.inj h
  · exact .take j ‹_›
  · exact .postEmpty j ‹_›
  · exact .unlockConsumer j ‹_›

theorem stepMain_step {s t : State P C α} (h : s.stepMain = some t) : Step s .main t := by
  unfold stepMain at h
  split at h
  · cases h
  · obtain rfl := Option.some.inj h
    exact .grow ‹_›
  · obtain rfl := Option.some.inj h
    exact .postGrown ‹_›
  · obtain rfl := Option.some.inj h
    exact .shift ‹_›
  · split at h
    · obtain rfl := Option.some.inj h
      exact .decide ‹_› ‹_›
    · obtain rfl := Option.some.inj h
      exact .decline ‹_› (by omega)
  · obtain rfl := Option.some.inj h
    exact .shrink ‹_›
  · split at h
    · cases h
    · obtain rfl := Option.some.inj h
      exact .waitShrunk ‹_› (Nat.pos_of_ne_zero ‹_›)
  · obtain rfl := Option.some.inj h
    exact .unlockMain ‹_›

/-- Every computed step is one of the operations. -/
theorem next_step {s t : State P C α} {a : Action P C α} (h : s.next a = some t) : Step s a t := by
  cases a with
  | produce i msg =>
    simp only [next] at h
    split at h
    · split at h
      · cases h
      · obtain rfl := Option.some.inj h
        exact .waitEmpty i msg ‹_› (Nat.pos_of_ne_zero ‹_›)
    · cases h
  | producer i => exact stepProducer_step h
  | consumer j => exact stepConsumer_step h
  | incremSize =>
    simp only [next] at h
    split at h
    · obtain rfl := Option.some.inj h
      exact .lockGrow (‹_ ∧ _›).1 (‹_ ∧ _›).2
    · cases h
  | discrSize =>
    simp only [next] at h
    split at h
    · obtain rfl := Option.some.inj h
      exact .lockShrink (‹_ ∧ _›).1 (‹_ ∧ _›).2
    · cases h
  | main => exact stepMain_step h

end State

end OsispLabs.Lab5.Semaphore
