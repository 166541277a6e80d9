import OsispLabs.Lab5.Condvar.Wakeup

/-!
# Progress of the threads of `lab5_2.c`

Without a new command and without a spurious wake-up the threads can all be stuck in one way only:
asleep at a queue that has been shrunk to no slots. At a fixed capacity they are never stuck, and
every schedule goes on delivering messages.
-/
namespace OsispLabs.Lab5.Condvar
open Lib

variable {P C α : Type*}

/-- How far a producer is in its loop, counted from its last insertion; what it gains by going to
sleep is given back by the wake-up. -/
def ProducerPc.progress : ProducerPc α → ℕ
  | .inserted => 0
  | .leaving => 3
  | .outside | .signalled _ | .spurious _ => 4
  | .testing _ => 5
  | .waiting _ => 6

/-- How far a consumer is in its loop, counted from its last removal. -/
def ConsumerPc.progress : ConsumerPc → ℕ
  | .taken => 0
  | .notified => 3
  | .leaving => 4
  | .outside | .signalled | .spurious => 5
  | .testing => 6
  | .waiting => 7

theorem ProducerPc.progress_le (pc : ProducerPc α) : pc.progress ≤ 6 := by
  cases pc <;> simp [ProducerPc.progress]

theorem ConsumerPc.progress_le (pc : ConsumerPc) : pc.progress ≤ 7 := by
  cases pc <;> simp [ConsumerPc.progress]

def Action.isSpurious : Action P C α → Bool
  | .wakeProducer _ | .wakeConsumer _ => true
  | .produce _ _ | .producer _ | .signalFull _ _ | .consumer _ | .signalEmpty _ _ | .incremSize
  | .discrSize | .main | .signalGrown _ => false

variable [DecidableEq P] [DecidableEq C] [Fintype P] [Fintype C]

namespace State

/-- No thread can make a step unless it is woken spuriously, so that only a new command can change
anything. -/
def Stuck (s : State P C α) : Prop :=
  ∀ a : Action P C α, a ≠ .incremSize ∧ a ≠ .discrSize ∧ a.isSpurious = false → s.next a = none

/-- Everybody sleeps at a queue without slots. -/
structure Asleep (s : State P C α) : Prop where
  menu : s.main = .menu
  mutex : s.mutex = false
  producer : ∀ i, ∃ msg, s.producer i = .waiting msg
  consumer : ∀ j, s.consumer j = .waiting
  empty : s.queue.sizeQueue = 0

/-- The operations of the producers and the consumers so far, up to a constant. -/
def work (s : State P C α) : ℕ :=
  6 * s.queue.countAdd + 7 * s.queue.countGet + total ProducerPc.progress s.producer +
    total ConsumerPc.progress s.consumer

variable {s t : State P C α} {a : Action P C α}

section Stuck

omit [DecidableEq C] [Fintype C] in
theorem exists_wakeEmpty (s : State P C α) : ∃ woken, s.wakeEmpty woken ≠ none := by
  by_cases h : ∀ i, (s.producer i).isWaiting = false
  · exact ⟨none, by simp [wakeEmpty, h]⟩
  · obtain ⟨i, hi⟩ := not_forall.mp h
    refine ⟨some i, ?_⟩
    cases hpc : s.producer i with
    | waiting msg => simp [wakeEmpty, hpc]
    | _ => simp [hpc, ProducerPc.isWaiting] at hi

omit [DecidableEq P] [Fintype P] in
theorem exists_wakeFull (s : State P C α) : ∃ woken, s.wakeFull woken ≠ none := by
  by_cases h : ∀ j, s.consumer j ≠ .waiting
  · exact ⟨none, by simp [wakeFull, h]⟩
  · obtain ⟨j, hj⟩ := not_forall.mp h
    exact ⟨some j, by simp [wakeFull, not_not.mp hj]⟩

omit [DecidableEq P] [DecidableEq C] [Fintype P] [Fintype C] in
theorem lock_eq_none_iff {u : State P C α} : s.lock u = none ↔ s.mutex = true := by
  cases hm : s.mutex <;> simp [lock, hm]

/-- A producer without a step sleeps or waits for the mutex. -/
theorem Stuck.producer [Nonempty α] (h : s.Stuck) (i : P) :
    (∃ msg, s.producer i = .waiting msg) ∨ (s.mutex = true ∧ (s.producer i).owns = 0) := by
  have hstep : s.stepProducer i = none := h (.producer i) (by simp [Action.isSpurious])
  cases hpc : s.producer i with
  | waiting msg => exact .inl ⟨msg, rfl⟩
  | outside =>
    obtain ⟨msg⟩ := ‹Nonempty α›
    have hproduce := h (.produce i msg) (by simp [Action.isSpurious])
    simp only [next, hpc] at hproduce
    exact .inr ⟨lock_eq_none_iff.mp hproduce, rfl⟩
  | testing msg =>
    simp only [stepProducer, hpc] at hstep
    split at hstep <;> cases hstep
  | signalled msg | spurious msg =>
    simp only [stepProducer, hpc] at hstep
    exact .inr ⟨lock_eq_none_iff.mp hstep, rfl⟩
  | inserted =>
    obtain ⟨woken, hwoken⟩ := exists_wakeFull (s.setProducer i .leaving)
    have hsignal := h (.signalFull i woken) (by simp [Action.isSpurious])
    simp only [next, hpc] at hsignal
    exact absurd hsignal hwoken
  | leaving =>
    simp only [stepProducer, hpc] at hstep
    cases hstep

theorem Stuck.consumer (h : s.Stuck) (j : C) :
    s.consumer j = .waiting ∨ (s.mutex = true ∧ (s.consumer j).owns = 0) := by
  have hstep : s.stepConsumer j = none := h (.consumer j) (by simp [Action.isSpurious])
  cases hpc : s.consumer j with
  | waiting => exact .inl rfl
  | outside | signalled | spurious =>
    simp only [stepConsumer, hpc] at hstep
    exact .inr ⟨lock_eq_none_iff.mp hstep, rfl⟩
  | testing =>
    simp only [stepConsumer, hpc] at hstep
    split at hstep <;> cases hstep
  | taken =>
    obtain ⟨woken, hwoken⟩ := exists_wakeEmpty (s.setConsumer j .notified)
    have hsignal := h (.signalEmpty j woken) (by simp [Action.isSpurious])
    simp only [next, hpc, if_true] at hsignal
    exact absurd hsignal hwoken
  | notified | leaving =>
    simp only [stepConsumer, hpc] at hstep
    cases hstep

theorem Stuck.menu (h : s.Stuck) : s.main = .menu := by
  have hstep : s.stepMain = none := h .main (by simp [Action.isSpurious])
  cases hpc : s.main with
  | menu => rfl
  | grown =>
    obtain ⟨woken, hwoken⟩ := exists_wakeEmpty { s with main := .shifting }
    have hsignal := h (.signalGrown woken) (by simp [Action.isSpurious])
    simp only [next, hpc, if_true] at hsignal
    exact absurd hsignal hwoken
  | growing | shifting | shrinking | leaving =>
    simp only [stepMain, hpc] at hstep
    cases hstep

theorem Stuck.mutex [Nonempty α] (h : s.Stuck) (hs : s.Lawful) : s.mutex = false := by
  have hp : total ProducerPc.owns s.producer = 0 := total_eq_zero fun i => by
    rcases h.producer i with ⟨msg, hpc⟩ | ⟨-, howns⟩
    · rw [hpc]
      rfl
    · exact howns
  have hc : total ConsumerPc.owns s.consumer = 0 := total_eq_zero fun j => by
    rcases h.consumer j with hpc | ⟨-, howns⟩
    · rw [hpc]
      rfl
    · exact howns
  have hexclusive := hs.exclusive
  rw [Exclusive, hp, hc, h.menu] at hexclusive
  exact Bool.toNat_eq_zero.mp hexclusive.symm

/-- Nobody is on the way, so a free slot or a message would be matched by nobody. -/
theorem Stuck.asleep [Nonempty P] [Nonempty C] [Nonempty α] (h : s.Stuck) (hs : s.Lawful) :
    s.Asleep := by
  have hmutex := h.mutex hs
  have hproducer : ∀ i, ∃ msg, s.producer i = .waiting msg := fun i =>
    (h.producer i).resolve_right fun hm => by simp [hmutex] at hm
  have hconsumer : ∀ j, s.consumer j = .waiting := fun j =>
    (h.consumer j).resolve_right fun hm => by simp [hmutex] at hm
  have hp : total ProducerPc.woken s.producer = 0 := total_eq_zero fun i => by
    obtain ⟨msg, hpc⟩ := hproducer i
    rw [hpc]
    rfl
  have hc : total ConsumerPc.woken s.consumer = 0 := total_eq_zero fun j => by
    rw [hconsumer j]
    rfl
  obtain ⟨hslots, hmessages⟩ := hs.noLostWakeup hmutex
  have hfree := hslots ⟨Classical.arbitrary P, hproducer _⟩
  have hcount := hmessages ⟨Classical.arbitrary C, hconsumer _⟩
  exact ⟨h.menu, hmutex, hproducer, hconsumer, by omega⟩

theorem Asleep.stuck (h : s.Asleep) : s.Stuck := by
  intro a ⟨hgrow, hshrink, hspurious⟩
  cases a with
  | produce i msg | producer i | signalFull i woken =>
    obtain ⟨msg', hpc⟩ := h.producer i
    simp only [next, stepProducer, hpc]
  | consumer j => simp only [next, stepConsumer, h.consumer j]
  | signalEmpty j woken => simp [next, h.consumer j]
  | wakeProducer i | wakeConsumer j => cases hspurious
  | incremSize => exact absurd rfl hgrow
  | discrSize => exact absurd rfl hshrink
  | main => simp only [next, stepMain, h.menu]
  | signalGrown woken => simp [next, h.menu]

/-- Whatever the threads, the wake-ups and the resizes have done: no thread can make a step exactly
where everybody sleeps at a queue without slots. -/
theorem run_stuck_iff_asleep [Nonempty P] [Nonempty C] [Nonempty α] (as : List (Action P C α))
    (s : State P C α) (hrun : exec next start as = some s) : s.Stuck ↔ s.Asleep :=
  ⟨fun h => h.asleep (exec_invariant next_lawful start_lawful hrun), Asleep.stuck⟩

/-- Ten shrinks of an empty queue, after which both threads go to sleep. -/
theorem run_stuck_iff_asleep_shrunk :
    ∃ s : State Unit Unit ℕ, exec next start ((List.replicate 10 [.discrSize, .main, .main]).flatten
        ++ [.consumer (), .consumer (), .produce () 7, .producer ()]) = some s ∧
      (s.Stuck ↔ s.Asleep) ∧ s.Asleep :=
  ⟨_, rfl, run_stuck_iff_asleep ((List.replicate 10 [.discrSize, .main, .main]).flatten ++
    [.consumer (), .consumer (), .produce () 7, .producer ()]) _ rfl,
    ⟨rfl, rfl, fun _ => ⟨7, rfl⟩, fun _ => rfl, rfl⟩⟩

end Stuck

section FixedCapacity

/-- The counters of a queue that is never resized: what is inserted and not yet removed is counted
by `countMsg`, up to the decrements that are due, and there is a slot for all of it. -/
structure Accounted (s : State P C α) : Prop where
  menu : s.main = .menu
  size : s.queue.sizeQueue = 10
  counted : s.queue.countGet + s.queue.countMsg =
    s.queue.countAdd + total ConsumerPc.removes s.consumer
  within : s.queue.countMsg ≤ s.queue.sizeQueue

omit [DecidableEq P] [DecidableEq C] [Fintype P] in
theorem start_accounted : (start : State P C α).Accounted := by
  have hc : total ConsumerPc.removes (start : State P C α).consumer = 0 :=
    total_eq_zero fun _ => rfl
  exact ⟨rfl, rfl, by rw [hc]; rfl, Nat.zero_le _⟩

omit [DecidableEq C] [Fintype P] in
theorem Accounted.moveProducer (hs : s.Accounted) {i : P} {new : ProducerPc α} {mutex : Bool} :
    ({ s.setProducer i new with mutex := mutex } : State P C α).Accounted :=
  ⟨hs.menu, hs.size, hs.counted, hs.within⟩

omit [DecidableEq P] [Fintype P] in
theorem Accounted.moveConsumer (hs : s.Accounted) {j : C} {old new : ConsumerPc}
    (hpc : s.consumer j = old) {queue : Queue α} {mutex : Bool}
    (hsize : queue.sizeQueue = s.queue.sizeQueue) (hadd : queue.countAdd = s.queue.countAdd)
    (hle : queue.countMsg ≤ s.queue.countMsg)
    (hm : queue.countGet + queue.countMsg + old.removes =
      s.queue.countGet + s.queue.countMsg + new.removes) :
    ({ s.setConsumer j new with queue := queue, mutex := mutex } : State P C α).Accounted := by
  have hc := total_setConsumer ConsumerPc.removes s j new hpc
  have hcounted := hs.counted
  have hwithin := hs.within
  refine ⟨hs.menu, hsize.trans hs.size, ?_, ?_⟩
  · change queue.countGet + queue.countMsg =
      queue.countAdd + total ConsumerPc.removes (s.setConsumer j new).consumer
    omega
  · change queue.countMsg ≤ queue.sizeQueue
    omega

omit [Fintype P] in
theorem Step.accounted (h : Step s a t) (hcount : s.Counted) (hs : s.Accounted)
    (ha : a ≠ .incremSize ∧ a ≠ .discrSize) : t.Accounted := by
  have hmenu := hs.menu
  cases h with
  | lockProducer | sleepProducer | relockSignalled | relockSpurious => exact hs.moveProducer
  | insert i msg hpc hroom =>
    have hcounted := hs.counted
    refine ⟨hmenu, hs.size, ?_, hroom⟩
    change s.queue.countGet + (s.queue.countMsg + 1) =
      s.queue.countAdd + 1 + total ConsumerPc.removes s.consumer
    omega
  | signalFull i j hpc hwait =>
    have hmid : (s.setProducer i .leaving).Accounted := hs.moveProducer
    exact hmid.moveConsumer hwait rfl rfl (Nat.le_refl _) rfl
  | signalFullNone | unlockProducer | wakeProducer => exact hs.moveProducer
  | lockConsumer j hpc hfree => exact hs.moveConsumer hpc rfl rfl (Nat.le_refl _) rfl
  | sleepConsumer j hpc hempty => exact hs.moveConsumer hpc rfl rfl (Nat.le_refl _) rfl
  | take j hpc hpos =>
    refine hs.moveConsumer hpc rfl rfl (Nat.le_refl _) ?_
    simp only [Queue.takeHead, Ring.take, ConsumerPc.removes]
    omega
  | relockConsumer j hpc hfree =>
    rcases hpc with hpc | hpc
    · exact hs.moveConsumer hpc rfl rfl (Nat.le_refl _) rfl
    · exact hs.moveConsumer hpc rfl rfl (Nat.le_refl _) rfl
  | signalEmpty j i msg hpc hwait =>
    have hmid : (s.setConsumer j .notified).Accounted :=
      hs.moveConsumer hpc rfl rfl (Nat.le_refl _) rfl
    exact hmid.moveProducer
  | signalEmptyNone j hpc hnone => exact hs.moveConsumer hpc rfl rfl (Nat.le_refl _) rfl
  | decrement j hpc =>
    have hpos := hcount.pos (j := j) (by rw [hpc]; rfl)
    refine hs.moveConsumer hpc rfl rfl (Nat.sub_le _ _) ?_
    simp only [Queue.decrement, ConsumerPc.removes]
    omega
  | unlockConsumer j hpc => exact hs.moveConsumer hpc rfl rfl (Nat.le_refl _) rfl
  | wakeConsumer j hpc => exact hs.moveConsumer hpc rfl rfl (Nat.le_refl _) rfl
  | lockGrow hpc hfree => exact absurd rfl ha.1
  | lockShrink hpc hfree => exact absurd rfl ha.2
  | enlarge hpc => rw [hmenu] at hpc; cases hpc
  | signalGrown i msg hpc hwait => rw [hmenu] at hpc; cases hpc
  | signalGrownNone hpc hnone => rw [hmenu] at hpc; cases hpc
  | openGap hpc => rw [hmenu] at hpc; cases hpc
  | shrink hpc => rw [hmenu] at hpc; cases hpc
  | unlockMain hpc => rw [hmenu] at hpc; cases hpc

omit [DecidableEq C] in
theorem work_moveProducer {i : P} {old new : ProducerPc α} (hpc : s.producer i = old)
    {queue : Queue α} {mutex : Bool} {k : ℕ} (hget : queue.countGet = s.queue.countGet)
    (hm : 6 * s.queue.countAdd + old.progress + 1 ≤ 6 * queue.countAdd + new.progress + k) :
    s.work + 1 ≤
      ({ s.setProducer i new with queue := queue, mutex := mutex } : State P C α).work + k := by
  have hp := total_setProducer ProducerPc.progress s i new hpc
  simp only [work, setProducer_consumer]
  omega

omit [DecidableEq P] in
theorem work_moveConsumer {j : C} {old new : ConsumerPc} (hpc : s.consumer j = old)
    {queue : Queue α} {mutex : Bool} {k : ℕ} (hadd : queue.countAdd = s.queue.countAdd)
    (hm : 7 * s.queue.countGet + old.progress + 1 ≤ 7 * queue.countGet + new.progress + k) :
    s.work + 1 ≤
      ({ s.setConsumer j new with queue := queue, mutex := mutex } : State P C α).work + k := by
  have hc := total_setConsumer ConsumerPc.progress s j new hpc
  simp only [work, setConsumer_producer]
  omega

/-- Each operation of a producer or a consumer is work done, up to what a wake-up gives back. -/
theorem Step.work (h : Step s a t) (hmenu : s.main = .menu)
    (ha : a ≠ .incremSize ∧ a ≠ .discrSize) :
    s.work + 1 ≤ t.work + if a.isSpurious then 3 else 0 := by
  cases h with
  | lockProducer i msg hpc hfree => exact work_moveProducer hpc rfl (Nat.le_refl _)
  | sleepProducer i msg hpc hfull => exact work_moveProducer hpc rfl (Nat.le_refl _)
  | insert i msg hpc hroom =>
    refine work_moveProducer hpc rfl ?_
    simp only [ProducerPc.progress, Queue.insert, Ring.put]
    omega
  | relockSignalled i msg hpc hfree => exact work_moveProducer hpc rfl (Nat.le_refl _)
  | relockSpurious i msg hpc hfree => exact work_moveProducer hpc rfl (Nat.le_refl _)
  | signalFull i j hpc hwait =>
    have hp := total_setProducer ProducerPc.progress s i .leaving hpc
    have hc := total_setConsumer ConsumerPc.progress s j .signalled hwait
    simp only [ProducerPc.progress, ConsumerPc.progress] at hp hc
    change s.work + 1 ≤ 6 * s.queue.countAdd + 7 * s.queue.countGet +
      total ProducerPc.progress (s.setProducer i .leaving).producer +
      total ConsumerPc.progress (s.setConsumer j .signalled).consumer + 0
    rw [State.work]
    omega
  | signalFullNone i hpc hnone =>
    refine work_moveProducer hpc rfl ?_
    simp only [ProducerPc.progress]
    omega
  | unlockProducer i hpc => exact work_moveProducer hpc rfl (Nat.le_refl _)
  | wakeProducer i msg hpc => exact work_moveProducer hpc rfl (Nat.le_refl _)
  | lockConsumer j hpc hfree => exact work_moveConsumer hpc rfl (Nat.le_refl _)
  | sleepConsumer j hpc hempty => exact work_moveConsumer hpc rfl (Nat.le_refl _)
  | take j hpc hpos =>
    refine work_moveConsumer hpc rfl ?_
    simp only [ConsumerPc.progress, Queue.takeHead, Ring.take]
    omega
  | relockConsumer j hpc hfree =>
    rcases hpc with hpc | hpc
    · exact work_moveConsumer hpc rfl (Nat.le_refl _)
    · exact work_moveConsumer hpc rfl (Nat.le_refl _)
  | signalEmpty j i msg hpc hwait =>
    have hc := total_setConsumer ConsumerPc.progress s j .notified hpc
    have hp := total_setProducer ProducerPc.progress s i (.signalled msg) hwait
    simp only [ProducerPc.progress, ConsumerPc.progress] at hp hc
    change s.work + 1 ≤ 6 * s.queue.countAdd + 7 * s.queue.countGet +
      total ProducerPc.progress (s.setProducer i (.signalled msg)).producer +
      total ConsumerPc.progress (s.setConsumer j .notified).consumer + 0
    rw [State.work]
    omega
  | signalEmptyNone j hpc hnone =>
    refine work_moveConsumer hpc rfl ?_
    simp only [ConsumerPc.progress]
    omega
  | decrement j hpc => exact work_moveConsumer hpc rfl (Nat.le_refl _)
  | unlockConsumer j hpc => exact work_moveConsumer hpc rfl (Nat.le_refl _)
  | wakeConsumer j hpc => exact work_moveConsumer hpc rfl (Nat.le_refl _)
  | lockGrow hpc hfree => exact absurd rfl ha.1
  | lockShrink hpc hfree => exact absurd rfl ha.2
  | enlarge hpc => rw [hmenu] at hpc; cases hpc
  | signalGrown i msg hpc hwait => rw [hmenu] at hpc; cases hpc
  | signalGrownNone hpc hnone => rw [hmenu] at hpc; cases hpc
  | openGap hpc => rw [hmenu] at hpc; cases hpc
  | shrink hpc => rw [hmenu] at hpc; cases hpc
  | unlockMain hpc => rw [hmenu] at hpc; cases hpc

omit [DecidableEq P] [DecidableEq C] in
theorem work_start :
    (start : State P C α).work = 4 * Fintype.card P + 5 * Fintype.card C := by
  have hp : total ProducerPc.progress (start : State P C α).producer = Fintype.card P * 4 :=
    total_const fun _ => rfl
  have hc : total ConsumerPc.progress (start : State P C α).consumer = Fintype.card C * 5 :=
    total_const fun _ => rfl
  rw [work, hp, hc]
  simp only [start, Queue.init_queue, Ring.init]
  omega

omit [DecidableEq P] [DecidableEq C] in
theorem work_le (s : State P C α) :
    s.work ≤ 6 * s.queue.countAdd + 7 * s.queue.countGet + 6 * Fintype.card P +
      7 * Fintype.card C := by
  have hp := total_le ProducerPc.progress_le s.producer
  have hc := total_le ConsumerPc.progress_le s.consumer
  rw [work]
  omega

/-- Without resizes the threads are never stuck, and whichever thread moves next, the messages
delivered keep up with the operations made, up to three for each spurious wake-up. -/
theorem run_keepsDelivering [Nonempty P] [Nonempty C] [Nonempty α] (as : List (Action P C α))
    (s : State P C α) (hfixed : ∀ a ∈ as, a ≠ .incremSize ∧ a ≠ .discrSize)
    (hrun : exec next start as = some s) :
    ¬ s.Stuck ∧ as.length ≤ 13 * s.queue.countGet + 60 + 2 * Fintype.card P + 2 * Fintype.card C +
      3 * as.countP Action.isSpurious := by
  have hok : StepsMeet next (fun (_ : State P C α) a => a ≠ .incremSize ∧ a ≠ .discrSize) start
      as := stepsMeet_of_forall (fun a ha _ => hfixed a ha) _
  have hstep : ∀ (s : State P C α) (a : Action P C α) (t : State P C α),
      s.Lawful ∧ s.Accounted → a ≠ .incremSize ∧ a ≠ .discrSize → s.next a = some t →
        t.Lawful ∧ t.Accounted := fun s a t hs ha hnext =>
    ⟨next_lawful s a t hs.1 hnext, (next_step hnext).accounted hs.1.counted hs.2 ha⟩
  have hstart : (start : State P C α).Lawful ∧ (start : State P C α).Accounted :=
    ⟨start_lawful, start_accounted⟩
  obtain ⟨hlawful, haccounted⟩ := exec_invariant_of_steps hstep hstart hok hrun
  constructor
  · intro hstuck
    have hempty := (hstuck.asleep hlawful).empty
    rw [haccounted.size] at hempty
    cases hempty
  · have hwork := exec_length_le_potential (m := work) 3 Action.isSpurious hstep
      (fun s a t hs ha hnext => (next_step hnext).work hs.2.menu ha) hstart hok hrun
    rw [work_start] at hwork
    have hle := work_le s
    have hcounted := haccounted.counted
    have hwithin := haccounted.within
    rw [haccounted.size] at hwithin
    omega

/-- A consumer sleeps, wakes up spuriously and stays behind the lock, while eight messages are
produced and handed out in turn to the other one. -/
def wokenRun : List (Action Unit Bool ℕ) :=
  [.consumer false, .consumer false, .wakeConsumer false] ++
    (List.replicate 8 [.produce () 7, .producer (), .signalFull () none, .producer (),
      .consumer true, .consumer true, .signalEmpty true none, .consumer true,
      .consumer true]).flatten

/-- The run is long enough for the bound to force a delivery. -/
theorem run_keepsDelivering_woken :
    ∃ s : State Unit Bool ℕ, exec next start wokenRun = some s ∧ ¬ s.Stuck ∧
      0 < s.queue.countGet := by
  have hruns : (exec next start wokenRun).isSome = true := by decide +kernel
  obtain ⟨s, hrun⟩ := Option.isSome_iff_exists.mp hruns
  obtain ⟨hmoves, hlength⟩ := run_keepsDelivering wokenRun s (by decide +kernel) hrun
  have hlong : wokenRun.length = 75 := rfl
  have hwoken : wokenRun.countP Action.isSpurious = 1 := by decide +kernel
  have hthreads : Fintype.card Unit = 1 ∧ Fintype.card Bool = 2 := ⟨rfl, rfl⟩
  exact ⟨s, hrun, hmoves, by omega⟩

end FixedCapacity

end State

end OsispLabs.Lab5.Condvar
