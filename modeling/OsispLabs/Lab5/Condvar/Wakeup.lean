import OsispLabs.Lab5.Condvar.Threads
import OsispLabs.Lib.Execution

/-!
# No lost wake-up in `lab5_2.c`

Each free slot is matched by a signalled producer as long as producers wait, and each message by
a signalled consumer as long as consumers wait. While the mutex is held the thread that holds it
makes up the difference; when it is free the matching is exact.
-/
namespace OsispLabs.Lab5.Condvar
open Lib

variable {P C α : Type*}

/-- One while the thread has the mutex. -/
def ProducerPc.owns : ProducerPc α → ℕ
  | .testing _ | .inserted | .leaving => 1
  | .outside | .waiting _ | .signalled _ | .spurious _ => 0

/-- One while the producer is blocked on `queue.empty` and not signalled. -/
def ProducerPc.blocked : ProducerPc α → ℕ
  | .waiting _ => 1
  | .outside | .testing _ | .signalled _ | .spurious _ | .inserted | .leaving => 0

/-- One while the producer is signalled and has not acquired the mutex again. -/
def ProducerPc.woken : ProducerPc α → ℕ
  | .signalled _ => 1
  | .outside | .testing _ | .waiting _ | .spurious _ | .inserted | .leaving => 0

def ProducerPc.tests : ProducerPc α → ℕ
  | .testing _ => 1
  | .outside | .waiting _ | .signalled _ | .spurious _ | .inserted | .leaving => 0

/-- One while the message is counted and `queue.full` not yet signalled. -/
def ProducerPc.announces : ProducerPc α → ℕ
  | .inserted => 1
  | .outside | .testing _ | .waiting _ | .signalled _ | .spurious _ | .leaving => 0

def ConsumerPc.owns : ConsumerPc → ℕ
  | .testing | .taken | .notified | .leaving => 1
  | .outside | .waiting | .signalled | .spurious => 0

def ConsumerPc.blocked : ConsumerPc → ℕ
  | .waiting => 1
  | .outside | .testing | .signalled | .spurious | .taken | .notified | .leaving => 0

def ConsumerPc.woken : ConsumerPc → ℕ
  | .signalled => 1
  | .outside | .testing | .waiting | .spurious | .taken | .notified | .leaving => 0

/-- One while the consumer is bound to decrement `countMsg` unless its test sends it to sleep. -/
def ConsumerPc.consumes : ConsumerPc → ℕ
  | .testing | .taken | .notified => 1
  | .outside | .waiting | .signalled | .spurious | .leaving => 0

/-- One while `queue.empty` is signalled and `countMsg` not yet decremented. -/
def ConsumerPc.announced : ConsumerPc → ℕ
  | .notified => 1
  | .outside | .testing | .waiting | .signalled | .spurious | .taken | .leaving => 0

/-- One while the consumer has taken a message that `countMsg` still counts. -/
def ConsumerPc.removes : ConsumerPc → ℕ
  | .taken | .notified => 1
  | .outside | .testing | .waiting | .signalled | .spurious | .leaving => 0

def MainPc.owns : MainPc → ℕ
  | .menu => 0
  | .growing | .grown | .shifting | .shrinking | .leaving => 1

/-- One while `sizeQueue` is raised and `queue.empty` not yet signalled. -/
def MainPc.announces : MainPc → ℕ
  | .grown => 1
  | .menu | .growing | .shifting | .shrinking | .leaving => 0

variable [DecidableEq P] [DecidableEq C] [Fintype P] [Fintype C]

namespace State

/-- What holds whenever the mutex is free: a sleeping producer means that at least as many
producers are signalled as there are free slots, and likewise for consumers and messages. -/
def NoLostWakeup (s : State P C α) : Prop :=
  s.mutex = false →
    ((∃ i msg, s.producer i = .waiting msg) →
      s.queue.sizeQueue - s.queue.countMsg ≤ total ProducerPc.woken s.producer) ∧
    ((∃ j, s.consumer j = .waiting) →
      s.queue.countMsg ≤ total ConsumerPc.woken s.consumer)

def Exclusive (s : State P C α) : Prop :=
  total ProducerPc.owns s.producer + total ConsumerPc.owns s.consumer + s.main.owns =
    s.mutex.toNat

/-- The free slots, and the one a consumer has announced, are matched by producers on their way
and by the announcement that `incremSize` still owes. -/
def ProducersAwake (s : State P C α) : Prop :=
  total ProducerPc.blocked s.producer = 0 ∨
    s.queue.sizeQueue - s.queue.countMsg + total ConsumerPc.announced s.consumer ≤
      total ProducerPc.woken s.producer + total ProducerPc.tests s.producer + s.main.announces

/-- The messages are matched by consumers on their way and by the announcement that a producer
still owes. -/
def ConsumersAwake (s : State P C α) : Prop :=
  total ConsumerPc.blocked s.consumer = 0 ∨
    s.queue.countMsg ≤ total ConsumerPc.woken s.consumer + total ConsumerPc.consumes s.consumer +
      total ProducerPc.announces s.producer

/-- The count that a consumer will decrement is not zero. -/
def Counted (s : State P C α) : Prop := total ConsumerPc.removes s.consumer ≤ s.queue.countMsg

variable {s t : State P C α} {a : Action P C α}

omit [DecidableEq C] [Fintype C] in
theorem total_setProducer (w : ProducerPc α → ℕ) (s : State P C α) (i : P) {old : ProducerPc α}
    (new : ProducerPc α) (hpc : s.producer i = old) :
    total w (s.setProducer i new).producer + w old = total w s.producer + w new :=
  hpc ▸ total_update w s.producer i new

omit [DecidableEq P] [Fintype P] in
theorem total_setConsumer (w : ConsumerPc → ℕ) (s : State P C α) (j : C) {old : ConsumerPc}
    (new : ConsumerPc) (hpc : s.consumer j = old) :
    total w (s.setConsumer j new).consumer + w old = total w s.consumer + w new :=
  hpc ▸ total_update w s.consumer j new

omit [DecidableEq P] [DecidableEq C] [Fintype C] in
theorem no_producer_blocked (hnone : ∀ i, (s.producer i).isWaiting = false) :
    total ProducerPc.blocked s.producer = 0 := by
  refine total_eq_zero fun i => ?_
  have hi := hnone i
  cases hpc : s.producer i with
  | waiting msg => simp [hpc, ProducerPc.isWaiting] at hi
  | _ => rfl

omit [DecidableEq P] [DecidableEq C] [Fintype P] in
theorem no_consumer_blocked (hnone : ∀ j, s.consumer j ≠ .waiting) :
    total ConsumerPc.blocked s.consumer = 0 := by
  refine total_eq_zero fun j => ?_
  have hj := hnone j
  cases hpc : s.consumer j with
  | waiting => exact absurd hpc hj
  | _ => rfl

section Exclusive

omit [DecidableEq C] in
theorem Exclusive.moveProducer (hs : s.Exclusive) {i : P} {old new : ProducerPc α}
    (hpc : s.producer i = old) {queue : Queue α} {mutex : Bool}
    (hm : mutex.toNat + old.owns = s.mutex.toNat + new.owns) :
    ({ s.setProducer i new with queue := queue, mutex := mutex } : State P C α).Exclusive := by
  have hp := total_setProducer ProducerPc.owns s i new hpc
  simp only [Exclusive, setProducer_consumer, setProducer_main] at hs ⊢
  omega

omit [DecidableEq P] in
theorem Exclusive.moveConsumer (hs : s.Exclusive) {j : C} {old new : ConsumerPc}
    (hpc : s.consumer j = old) {queue : Queue α} {mutex : Bool}
    (hm : mutex.toNat + old.owns = s.mutex.toNat + new.owns) :
    ({ s.setConsumer j new with queue := queue, mutex := mutex } : State P C α).Exclusive := by
  have hc := total_setConsumer ConsumerPc.owns s j new hpc
  simp only [Exclusive, setConsumer_producer, setConsumer_main] at hs ⊢
  omega

omit [DecidableEq P] [DecidableEq C] in
theorem Exclusive.moveMain (hs : s.Exclusive) {old new : MainPc} (hpc : s.main = old)
    {queue : Queue α} {mutex : Bool} (hm : mutex.toNat + old.owns = s.mutex.toNat + new.owns) :
    ({ s with queue := queue, mutex := mutex, main := new } : State P C α).Exclusive := by
  subst hpc
  simp only [Exclusive] at hs ⊢
  omega

omit [DecidableEq P] [DecidableEq C] in
/-- The thread that has the mutex is the only one in a critical section. -/
theorem Exclusive.of_producer (hs : s.Exclusive) {i : P} (hi : (s.producer i).owns = 1) :
    s.mutex = true ∧ total ConsumerPc.owns s.consumer = 0 ∧ s.main.owns = 0 := by
  have hle := apply_le_total ProducerPc.owns s.producer i
  have hm := s.mutex.toNat_le
  have hx : _ = s.mutex.toNat := hs
  exact ⟨Bool.toNat_eq_one.mp (by omega), by omega, by omega⟩

omit [DecidableEq P] [DecidableEq C] in
theorem Exclusive.of_consumer (hs : s.Exclusive) {j : C} (hj : (s.consumer j).owns = 1) :
    s.mutex = true ∧ total ProducerPc.owns s.producer = 0 ∧ s.main.owns = 0 := by
  have hle := apply_le_total ConsumerPc.owns s.consumer j
  have hm := s.mutex.toNat_le
  have hx : _ = s.mutex.toNat := hs
  exact ⟨Bool.toNat_eq_one.mp (by omega), by omega, by omega⟩

omit [DecidableEq P] [DecidableEq C] in
theorem Exclusive.of_main (hs : s.Exclusive) (hmain : s.main.owns = 1) : s.mutex = true := by
  have hm := s.mutex.toNat_le
  have hx : _ = s.mutex.toNat := hs
  exact Bool.toNat_eq_one.mp (by omega)

theorem Step.exclusive (h : Step s a t) (hs : s.Exclusive) : t.Exclusive := by
  cases h with
  | lockProducer i msg hpc hfree => exact hs.moveProducer hpc (by rw [hfree]; rfl)
  | sleepProducer i msg hpc hfull =>
    have hm := (hs.of_producer (i := i) (by rw [hpc]; rfl)).1
    exact hs.moveProducer hpc (by rw [hm]; rfl)
  | insert i msg hpc hroom => exact hs.moveProducer hpc rfl
  | relockSignalled i msg hpc hfree => exact hs.moveProducer hpc (by rw [hfree]; rfl)
  | relockSpurious i msg hpc hfree => exact hs.moveProducer hpc (by rw [hfree]; rfl)
  | signalFull i j hpc hwait =>
    have hmid : (s.setProducer i .leaving).Exclusive := hs.moveProducer hpc rfl
    exact hmid.moveConsumer hwait rfl
  | signalFullNone i hpc hnone => exact hs.moveProducer hpc rfl
  | unlockProducer i hpc =>
    have hm := (hs.of_producer (i := i) (by rw [hpc]; rfl)).1
    exact hs.moveProducer hpc (by rw [hm]; rfl)
  | wakeProducer i msg hpc => exact hs.moveProducer hpc rfl
  | lockConsumer j hpc hfree => exact hs.moveConsumer hpc (by rw [hfree]; rfl)
  | sleepConsumer j hpc hempty =>
    have hm := (hs.of_consumer (j := j) (by rw [hpc]; rfl)).1
    exact hs.moveConsumer hpc (by rw [hm]; rfl)
  | take j hpc hpos => exact hs.moveConsumer hpc rfl
  | relockConsumer j hpc hfree =>
    rcases hpc with hpc | hpc
    · exact hs.moveConsumer hpc (by rw [hfree]; rfl)
    · exact hs.moveConsumer hpc (by rw [hfree]; rfl)
  | signalEmpty j i msg hpc hwait =>
    have hmid : (s.setConsumer j .notified).Exclusive := hs.moveConsumer hpc rfl
    exact hmid.moveProducer hwait rfl
  | signalEmptyNone j hpc hnone => exact hs.moveConsumer hpc rfl
  | decrement j hpc => exact hs.moveConsumer hpc rfl
  | unlockConsumer j hpc =>
    have hm := (hs.of_consumer (j := j) (by rw [hpc]; rfl)).1
    exact hs.moveConsumer hpc (by rw [hm]; rfl)
  | wakeConsumer j hpc => exact hs.moveConsumer hpc rfl
  | lockGrow hpc hfree => exact hs.moveMain hpc (by rw [hfree]; rfl)
  | enlarge hpc => exact hs.moveMain hpc rfl
  | signalGrown i msg hpc hwait =>
    have hmid : ({ s with main := .shifting } : State P C α).Exclusive := hs.moveMain hpc rfl
    exact hmid.moveProducer hwait rfl
  | signalGrownNone hpc hnone => exact hs.moveMain hpc rfl
  | openGap hpc => exact hs.moveMain hpc rfl
  | lockShrink hpc hfree => exact hs.moveMain hpc (by rw [hfree]; rfl)
  | shrink hpc => exact hs.moveMain hpc rfl
  | unlockMain hpc =>
    have hm := hs.of_main (by rw [hpc]; rfl)
    exact hs.moveMain hpc (by rw [hm]; rfl)

end Exclusive

section Producers

omit [DecidableEq C] in
/-- A producer that does not go to sleep keeps the matching when what it gives up in free slots
covers what it gives up in wake-ups. -/
theorem ProducersAwake.moveProducer (hs : s.ProducersAwake) {i : P} {old new : ProducerPc α}
    (hpc : s.producer i = old) {queue : Queue α} {mutex : Bool} (hb : new.blocked ≤ old.blocked)
    (hm : queue.sizeQueue - queue.countMsg + (old.woken + old.tests) ≤
      s.queue.sizeQueue - s.queue.countMsg + (new.woken + new.tests)) :
    ({ s.setProducer i new with queue := queue, mutex := mutex } :
      State P C α).ProducersAwake := by
  have h1 := total_setProducer ProducerPc.blocked s i new hpc
  have h2 := total_setProducer ProducerPc.woken s i new hpc
  have h3 := total_setProducer ProducerPc.tests s i new hpc
  simp only [ProducersAwake, setProducer_consumer, setProducer_main] at hs ⊢
  omega

omit [DecidableEq P] in
theorem ProducersAwake.moveConsumer (hs : s.ProducersAwake) {j : C} {old new : ConsumerPc}
    (hpc : s.consumer j = old) {queue : Queue α} {mutex : Bool}
    (hm : queue.sizeQueue - queue.countMsg + new.announced ≤
      s.queue.sizeQueue - s.queue.countMsg + old.announced) :
    ({ s.setConsumer j new with queue := queue, mutex := mutex } :
      State P C α).ProducersAwake := by
  have h1 := total_setConsumer ConsumerPc.announced s j new hpc
  simp only [ProducersAwake, setConsumer_producer, setConsumer_main] at hs ⊢
  omega

omit [DecidableEq P] [DecidableEq C] in
theorem ProducersAwake.moveMain (hs : s.ProducersAwake) {old new : MainPc} (hpc : s.main = old)
    {queue : Queue α} {mutex : Bool}
    (hm : queue.sizeQueue - queue.countMsg + old.announces ≤
      s.queue.sizeQueue - s.queue.countMsg + new.announces) :
    ({ s with queue := queue, mutex := mutex, main := new } : State P C α).ProducersAwake := by
  subst hpc
  simp only [ProducersAwake] at hs ⊢
  omega

theorem ConsumerPc.announced_le (pc : ConsumerPc) : pc.announced ≤ pc.owns := by
  cases pc <;> decide

theorem MainPc.announces_le (pc : MainPc) : pc.announces ≤ pc.owns := by
  cases pc <;> decide

omit [DecidableEq C] in
/-- A producer goes to sleep only when no slot is free, and nothing is announced meanwhile. -/
theorem Exclusive.sleep (hx : s.Exclusive) {i : P} {msg : α}
    (hpc : s.producer i = .testing msg) (hfull : s.queue.sizeQueue ≤ s.queue.countMsg) :
    ({ s.setProducer i (.waiting msg) with mutex := false } : State P C α).ProducersAwake := by
  have hone := (hx.of_producer (i := i) (by rw [hpc]; rfl)).2.1
  have hle := total_mono ConsumerPc.announced_le s.consumer
  right
  simp only [setProducer_consumer, setProducer_main, setProducer_queue]
  omega

omit [DecidableEq C] in
/-- A signal to a waiting producer pays for one more free slot. -/
theorem ProducersAwake.signal {i : P} {msg : α} (hwait : s.producer i = .waiting msg)
    (hm : s.queue.sizeQueue - s.queue.countMsg + total ConsumerPc.announced s.consumer ≤
      total ProducerPc.woken s.producer + total ProducerPc.tests s.producer +
        s.main.announces + 1) :
    (s.setProducer i (.signalled msg)).ProducersAwake := by
  have h2 := total_setProducer ProducerPc.woken s i (.signalled msg) hwait
  have h3 := total_setProducer ProducerPc.tests s i (.signalled msg) hwait
  simp only [ProducerPc.woken, ProducerPc.tests] at h2 h3
  right
  simp only [setProducer_consumer, setProducer_main, setProducer_queue]
  omega

omit [DecidableEq P] [DecidableEq C] [Fintype C] in
theorem blocked_pos {i : P} {msg : α} (hwait : s.producer i = .waiting msg) :
    0 < total ProducerPc.blocked s.producer := by
  have hle := apply_le_total ProducerPc.blocked s.producer i
  rw [hwait] at hle
  exact hle

theorem openGap_counts (q : Queue α) :
    q.openGap.sizeQueue = q.sizeQueue ∧ q.openGap.countMsg = q.countMsg := by
  unfold Queue.openGap
  split <;> exact ⟨rfl, rfl⟩

theorem discrSize_counts (q : Queue α) :
    q.discrSize.sizeQueue ≤ q.sizeQueue ∧ q.discrSize.countMsg = q.countMsg := by
  unfold Queue.discrSize
  split
  · exact ⟨Nat.sub_le _ _, rfl⟩
  · exact ⟨Nat.le_refl _, rfl⟩

theorem Step.producersAwake (h : Step s a t) (hx : s.Exclusive) (hs : s.ProducersAwake) :
    t.ProducersAwake := by
  cases h with
  | lockProducer i msg hpc hfree =>
    exact hs.moveProducer hpc (Nat.le_refl _) (Nat.le_succ _)
  | sleepProducer i msg hpc hfull => exact hx.sleep hpc hfull
  | insert i msg hpc hroom =>
    refine hs.moveProducer hpc (Nat.le_refl _) ?_
    change s.queue.sizeQueue - (s.queue.countMsg + 1) + 1 ≤
      s.queue.sizeQueue - s.queue.countMsg + 0
    omega
  | relockSignalled i msg hpc hfree =>
    exact hs.moveProducer hpc (Nat.le_refl _) (Nat.le_refl _)
  | relockSpurious i msg hpc hfree =>
    exact hs.moveProducer hpc (Nat.le_refl _) (Nat.le_succ _)
  | signalFull i j hpc hwait =>
    have hmid : (s.setProducer i .leaving).ProducersAwake :=
      hs.moveProducer hpc (Nat.le_refl _) (Nat.le_refl _)
    exact hmid.moveConsumer hwait (Nat.le_refl _)
  | signalFullNone i hpc hnone => exact hs.moveProducer hpc (Nat.le_refl _) (Nat.le_refl _)
  | unlockProducer i hpc => exact hs.moveProducer hpc (Nat.le_refl _) (Nat.le_refl _)
  | wakeProducer i msg hpc => exact hs.moveProducer hpc (Nat.zero_le _) (Nat.le_refl _)
  | lockConsumer j hpc hfree => exact hs.moveConsumer hpc (Nat.le_refl _)
  | sleepConsumer j hpc hempty => exact hs.moveConsumer hpc (Nat.le_refl _)
  | take j hpc hpos => exact hs.moveConsumer hpc (Nat.le_refl _)
  | relockConsumer j hpc hfree =>
    rcases hpc with hpc | hpc
    · exact hs.moveConsumer hpc (Nat.le_refl _)
    · exact hs.moveConsumer hpc (Nat.le_refl _)
  | signalEmpty j i msg hpc hwait =>
    have h1 := total_setConsumer ConsumerPc.announced s j .notified hpc
    have hpos := blocked_pos hwait
    simp only [ProducersAwake, ConsumerPc.announced] at hs h1
    refine ProducersAwake.signal hwait ?_
    simp only [setConsumer_producer, setConsumer_main, setConsumer_queue]
    omega
  | signalEmptyNone j hpc hnone => exact .inl (no_producer_blocked hnone)
  | decrement j hpc =>
    refine hs.moveConsumer hpc ?_
    change s.queue.sizeQueue - (s.queue.countMsg - 1) + 0 ≤
      s.queue.sizeQueue - s.queue.countMsg + 1
    omega
  | unlockConsumer j hpc => exact hs.moveConsumer hpc (Nat.le_refl _)
  | wakeConsumer j hpc => exact hs.moveConsumer hpc (Nat.le_refl _)
  | lockGrow hpc hfree => exact hs.moveMain hpc (Nat.le_refl _)
  | enlarge hpc =>
    refine hs.moveMain hpc ?_
    change s.queue.sizeQueue + 1 - s.queue.countMsg + 0 ≤ s.queue.sizeQueue - s.queue.countMsg + 1
    omega
  | signalGrown i msg hpc hwait =>
    have hpos := blocked_pos hwait
    simp only [ProducersAwake, hpc, MainPc.announces] at hs
    refine ProducersAwake.signal hwait ?_
    simp only [MainPc.announces]
    omega
  | signalGrownNone hpc hnone => exact .inl (no_producer_blocked hnone)
  | openGap hpc =>
    refine hs.moveMain hpc ?_
    rw [(openGap_counts _).1, (openGap_counts _).2]
    exact Nat.le_refl _
  | lockShrink hpc hfree => exact hs.moveMain hpc (Nat.le_refl _)
  | shrink hpc =>
    have hq := discrSize_counts s.queue
    refine hs.moveMain hpc ?_
    simp only [MainPc.announces]
    omega
  | unlockMain hpc => exact hs.moveMain hpc (Nat.le_refl _)

end Producers

section Consumers

omit [DecidableEq P] in
theorem ConsumersAwake.moveConsumer (hs : s.ConsumersAwake) {j : C} {old new : ConsumerPc}
    (hpc : s.consumer j = old) {queue : Queue α} {mutex : Bool} (hb : new.blocked ≤ old.blocked)
    (hm : queue.countMsg + (old.woken + old.consumes) ≤
      s.queue.countMsg + (new.woken + new.consumes)) :
    ({ s.setConsumer j new with queue := queue, mutex := mutex } :
      State P C α).ConsumersAwake := by
  have h1 := total_setConsumer ConsumerPc.blocked s j new hpc
  have h2 := total_setConsumer ConsumerPc.woken s j new hpc
  have h3 := total_setConsumer ConsumerPc.consumes s j new hpc
  simp only [ConsumersAwake, setConsumer_producer] at hs ⊢
  omega

omit [DecidableEq C] in
theorem ConsumersAwake.moveProducer (hs : s.ConsumersAwake) {i : P} {old new : ProducerPc α}
    (hpc : s.producer i = old) {queue : Queue α} {mutex : Bool}
    (hm : queue.countMsg + old.announces ≤ s.queue.countMsg + new.announces) :
    ({ s.setProducer i new with queue := queue, mutex := mutex } :
      State P C α).ConsumersAwake := by
  have h1 := total_setProducer ProducerPc.announces s i new hpc
  simp only [ConsumersAwake, setProducer_consumer] at hs ⊢
  omega

omit [DecidableEq P] [DecidableEq C] in
theorem ConsumersAwake.moveMain (hs : s.ConsumersAwake) {queue : Queue α} {mutex : Bool}
    {main : MainPc} (hm : queue.countMsg = s.queue.countMsg) :
    ({ s with queue := queue, mutex := mutex, main := main } : State P C α).ConsumersAwake := by
  simp only [ConsumersAwake] at hs ⊢
  omega

omit [DecidableEq P] [Fintype P] in
theorem Counted.moveConsumer (hs : s.Counted) {j : C} {old new : ConsumerPc}
    (hpc : s.consumer j = old) {queue : Queue α} {mutex : Bool}
    (hm : s.queue.countMsg + new.removes ≤ queue.countMsg + old.removes) :
    ({ s.setConsumer j new with queue := queue, mutex := mutex } : State P C α).Counted := by
  have h1 := total_setConsumer ConsumerPc.removes s j new hpc
  simp only [Counted] at hs ⊢
  omega

omit [DecidableEq P] [DecidableEq C] [Fintype P] in
theorem Counted.of_le (hs : s.Counted) (hc : t.consumer = s.consumer)
    (hm : s.queue.countMsg ≤ t.queue.countMsg) : t.Counted := by
  unfold Counted at hs ⊢
  rw [hc]
  omega

omit [DecidableEq P] [DecidableEq C] [Fintype P] in
theorem Counted.pos (hs : s.Counted) {j : C} (hj : (s.consumer j).removes = 1) :
    0 < s.queue.countMsg := by
  have hle := apply_le_total ConsumerPc.removes s.consumer j
  unfold Counted at hs
  omega

theorem ConsumerPc.removes_le (pc : ConsumerPc) : pc.removes ≤ pc.owns := by
  cases pc <;> decide

omit [DecidableEq P] in
/-- The test `countMsg == 0` protects the decrement: only the owner of the mutex removes. -/
theorem Exclusive.take (hx : s.Exclusive) {j : C} (hpc : s.consumer j = .testing)
    (hpos : 0 < s.queue.countMsg) :
    ({ s.setConsumer j .taken with queue := s.queue.takeHead.2 } : State P C α).Counted := by
  have h1 := total_setConsumer ConsumerPc.owns s j .taken hpc
  have hle := total_mono ConsumerPc.removes_le (s.setConsumer j .taken).consumer
  have hm := s.mutex.toNat_le
  have hone : _ = s.mutex.toNat := hx
  simp only [ConsumerPc.owns] at h1
  change total ConsumerPc.removes (s.setConsumer j .taken).consumer ≤ s.queue.countMsg
  omega

theorem Step.counted (h : Step s a t) (hx : s.Exclusive) (hs : s.Counted) : t.Counted := by
  cases h with
  | lockProducer i msg hpc hfree => exact hs
  | sleepProducer i msg hpc hfull => exact hs
  | insert i msg hpc hroom => exact hs.of_le rfl (Nat.le_succ _)
  | relockSignalled i msg hpc hfree => exact hs
  | relockSpurious i msg hpc hfree => exact hs
  | signalFull i j hpc hwait =>
    have hmid : (s.setProducer i .leaving).Counted := hs
    exact hmid.moveConsumer hwait (Nat.le_refl _)
  | signalFullNone i hpc hnone => exact hs
  | unlockProducer i hpc => exact hs
  | wakeProducer i msg hpc => exact hs
  | lockConsumer j hpc hfree => exact hs.moveConsumer hpc (Nat.le_refl _)
  | sleepConsumer j hpc hempty => exact hs.moveConsumer hpc (Nat.le_refl _)
  | take j hpc hpos => exact hx.take hpc hpos
  | relockConsumer j hpc hfree =>
    rcases hpc with hpc | hpc
    · exact hs.moveConsumer hpc (Nat.le_refl _)
    · exact hs.moveConsumer hpc (Nat.le_refl _)
  | signalEmpty j i msg hpc hwait =>
    have hmid : (s.setConsumer j .notified).Counted := hs.moveConsumer hpc (Nat.le_refl _)
    exact hmid
  | signalEmptyNone j hpc hnone => exact hs.moveConsumer hpc (Nat.le_refl _)
  | decrement j hpc =>
    have hpos := hs.pos (j := j) (by rw [hpc]; rfl)
    exact hs.moveConsumer hpc (Nat.sub_add_cancel hpos).ge
  | unlockConsumer j hpc => exact hs.moveConsumer hpc (Nat.le_refl _)
  | wakeConsumer j hpc => exact hs.moveConsumer hpc (Nat.le_refl _)
  | lockGrow hpc hfree => exact hs
  | enlarge hpc => exact hs
  | signalGrown i msg hpc hwait => exact hs
  | signalGrownNone hpc hnone => exact hs
  | openGap hpc => exact hs.of_le rfl (openGap_counts _).2.ge
  | lockShrink hpc hfree => exact hs
  | shrink hpc => exact hs.of_le rfl (discrSize_counts _).2.ge
  | unlockMain hpc => exact hs

theorem Step.consumersAwake (h : Step s a t) (hcount : s.Counted) (hs : s.ConsumersAwake) :
    t.ConsumersAwake := by
  cases h with
  | lockProducer i msg hpc hfree => exact hs.moveProducer hpc (Nat.le_refl _)
  | sleepProducer i msg hpc hfull => exact hs.moveProducer hpc (Nat.le_refl _)
  | insert i msg hpc hroom => exact hs.moveProducer hpc (Nat.le_refl _)
  | relockSignalled i msg hpc hfree => exact hs.moveProducer hpc (Nat.le_refl _)
  | relockSpurious i msg hpc hfree => exact hs.moveProducer hpc (Nat.le_refl _)
  | signalFull i j hpc hwait =>
    have h1 := total_setProducer ProducerPc.announces s i .leaving hpc
    have h2 := total_setConsumer ConsumerPc.woken s j .signalled hwait
    have h3 := total_setConsumer ConsumerPc.consumes s j .signalled hwait
    have hpos := apply_le_total ConsumerPc.blocked s.consumer j
    rw [hwait] at hpos
    simp only [ConsumersAwake, ConsumerPc.blocked, ConsumerPc.woken, ConsumerPc.consumes,
      ProducerPc.announces] at hs h1 h2 h3 hpos
    right
    change s.queue.countMsg ≤ total ConsumerPc.woken (s.setConsumer j .signalled).consumer +
      total ConsumerPc.consumes (s.setConsumer j .signalled).consumer +
      total ProducerPc.announces (s.setProducer i .leaving).producer
    omega
  | signalFullNone i hpc hnone => exact .inl (no_consumer_blocked hnone)
  | unlockProducer i hpc => exact hs.moveProducer hpc (Nat.le_refl _)
  | wakeProducer i msg hpc => exact hs.moveProducer hpc (Nat.le_refl _)
  | lockConsumer j hpc hfree =>
    exact hs.moveConsumer hpc (Nat.le_refl _) (Nat.le_succ _)
  | sleepConsumer j hpc hempty =>
    right
    change s.queue.countMsg ≤ _
    rw [hempty]
    exact Nat.zero_le _
  | take j hpc hpos => exact hs.moveConsumer hpc (Nat.le_refl _) (Nat.le_refl _)
  | relockConsumer j hpc hfree =>
    rcases hpc with hpc | hpc
    · exact hs.moveConsumer hpc (Nat.le_refl _) (Nat.le_refl _)
    · exact hs.moveConsumer hpc (Nat.le_refl _) (Nat.le_succ _)
  | signalEmpty j i msg hpc hwait =>
    have hmid : (s.setConsumer j .notified).ConsumersAwake :=
      hs.moveConsumer hpc (Nat.le_refl _) (Nat.le_refl _)
    exact hmid.moveProducer hwait (Nat.le_refl _)
  | signalEmptyNone j hpc hnone => exact hs.moveConsumer hpc (Nat.le_refl _) (Nat.le_refl _)
  | decrement j hpc =>
    have hpos := hcount.pos (j := j) (by rw [hpc]; rfl)
    exact hs.moveConsumer hpc (Nat.le_refl _) (Nat.sub_add_cancel hpos).le
  | unlockConsumer j hpc => exact hs.moveConsumer hpc (Nat.le_refl _) (Nat.le_refl _)
  | wakeConsumer j hpc => exact hs.moveConsumer hpc (Nat.zero_le _) (Nat.le_refl _)
  | lockGrow hpc hfree => exact hs.moveMain rfl
  | enlarge hpc => exact hs.moveMain rfl
  | signalGrown i msg hpc hwait =>
    have hmid : ({ s with main := .shifting } : State P C α).ConsumersAwake := hs.moveMain rfl
    exact hmid.moveProducer hwait (Nat.le_refl _)
  | signalGrownNone hpc hnone => exact hs.moveMain rfl
  | openGap hpc => exact hs.moveMain (openGap_counts _).2
  | lockShrink hpc hfree => exact hs.moveMain rfl
  | shrink hpc => exact hs.moveMain (discrSize_counts _).2
  | unlockMain hpc => exact hs.moveMain rfl

end Consumers

/-- The laws of every reachable state. -/
structure Lawful (s : State P C α) : Prop where
  exclusive : s.Exclusive
  counted : s.Counted
  producers : s.ProducersAwake
  consumers : s.ConsumersAwake

omit [DecidableEq P] [DecidableEq C] in
theorem start_lawful : (start : State P C α).Lawful where
  exclusive := by
    have hp : total ProducerPc.owns (start : State P C α).producer = 0 :=
      total_eq_zero fun _ => rfl
    have hc : total ConsumerPc.owns (start : State P C α).consumer = 0 :=
      total_eq_zero fun _ => rfl
    rw [Exclusive, hp, hc]
    rfl
  counted := (total_eq_zero fun _ => rfl).le
  producers := .inl (total_eq_zero fun _ => rfl)
  consumers := .inl (total_eq_zero fun _ => rfl)

theorem next_lawful (s : State P C α) (a : Action P C α) (t : State P C α) (hs : s.Lawful)
    (h : s.next a = some t) : t.Lawful :=
  have hstep := next_step h
  ⟨hstep.exclusive hs.exclusive, hstep.counted hs.exclusive hs.counted,
    hstep.producersAwake hs.exclusive hs.producers, hstep.consumersAwake hs.counted hs.consumers⟩

theorem ProducerPc.tests_le (pc : ProducerPc α) : pc.tests ≤ pc.owns := by
  cases pc <;> exact Nat.le_of_ble_eq_true rfl

theorem ProducerPc.announces_le (pc : ProducerPc α) : pc.announces ≤ pc.owns := by
  cases pc <;> exact Nat.le_of_ble_eq_true rfl

theorem ConsumerPc.consumes_le (pc : ConsumerPc) : pc.consumes ≤ pc.owns := by
  cases pc <;> decide

omit [DecidableEq P] [DecidableEq C] in
/-- With the mutex free nobody is on the way, so the matching is exact. -/
theorem Lawful.noLostWakeup (hs : s.Lawful) : s.NoLostWakeup := by
  intro hfree
  have hx : _ = s.mutex.toNat := hs.exclusive
  rw [hfree, Bool.toNat_false] at hx
  have hmain := MainPc.announces_le s.main
  have htests := total_mono ProducerPc.tests_le s.producer
  have hannounces := total_mono ProducerPc.announces_le s.producer
  have hconsumes := total_mono ConsumerPc.consumes_le s.consumer
  constructor
  · rintro ⟨i, msg, hwait⟩
    have hpos := blocked_pos hwait
    have hp := hs.producers
    unfold ProducersAwake at hp
    omega
  · rintro ⟨j, hwait⟩
    have hpos := apply_le_total ConsumerPc.blocked s.consumer j
    have hc := hs.consumers
    rw [hwait] at hpos
    simp only [ConsumersAwake, ConsumerPc.blocked] at hc hpos
    omega

/-- Every interleaving of the threads, their wake-ups and the resizes matches each free slot and
each message with a wake-up on its way, as long as somebody sleeps. -/
theorem run_noLostWakeup (as : List (Action P C α)) (s : State P C α)
    (hrun : exec next start as = some s) : s.NoLostWakeup :=
  (exec_invariant next_lawful start_lawful hrun).noLostWakeup

theorem run_noLostWakeup_signalled :
    ∃ s : State (Fin 1) (Fin 2) ℕ, exec next start [.consumer 0, .consumer 0, .consumer 1,
      .consumer 1, .produce 0 4, .producer 0, .signalFull 0 (some 1), .producer 0] = some s ∧
      s.NoLostWakeup :=
  ⟨_, rfl, run_noLostWakeup [.consumer 0, .consumer 0, .consumer 1, .consumer 1, .produce 0 4,
    .producer 0, .signalFull 0 (some 1), .producer 0] _ rfl⟩

end State

end OsispLabs.Lab5.Condvar
