import OsispLabs.Lab5.Semaphore.Fifo
import OsispLabs.Lab5.Semaphore.Shrink

/-!
# Progress of the threads of `lab5_1.c`

The threads can all be stuck in two ways only: behind a `discrSize` that waits for a token with
the mutex held, or at the two semaphores of a queue without slots. At a fixed capacity they are
never stuck, and every schedule goes on delivering messages.
-/
namespace OsispLabs.Lab5.Semaphore
open Lib

variable {P C α : Type*} [DecidableEq P] [DecidableEq C] [Fintype P] [Fintype C]

/-- How far a producer is in its loop, counted from its last write. -/
def ProducerPc.progress : ProducerPc α → ℕ
  | .written => 0
  | .posted => 1
  | .outside => 2
  | .token _ => 3
  | .locked _ => 4

/-- How far a consumer is in its loop, counted from its last read. -/
def ConsumerPc.progress : ConsumerPc → ℕ
  | .taken => 0
  | .posted => 1
  | .outside => 2
  | .token => 3
  | .locked => 4

theorem ProducerPc.progress_le (pc : ProducerPc α) : pc.progress ≤ 4 := by
  cases pc <;> simp [ProducerPc.progress]

theorem ConsumerPc.progress_le (pc : ConsumerPc) : pc.progress ≤ 4 := by
  cases pc <;> simp [ConsumerPc.progress]

namespace State

/-- No thread can make a step, so that only a new command can change anything. -/
def Stuck (s : State P C α) : Prop :=
  ∀ a, a ≠ .incremSize ∧ a ≠ .discrSize → s.next a = none

/-- Why the threads are stuck: `discrSize` waits for a token that no thread is going to post, or
there is no slot for which a token could be posted. -/
def Jammed (s : State P C α) : Prop :=
  (s.Blocked ∧ (s.full = 0 ∨ ∀ j, s.consumer j ≠ .outside)) ∨
    (s.main = .menu ∧ s.mutex = false ∧ s.ring.sizeQueue = 0)

/-- The operations of the producers and the consumers so far, up to a constant. -/
def work (s : State P C α) : ℕ :=
  5 * (s.produced.length + s.consumed.length) + total ProducerPc.progress s.producer +
    total ConsumerPc.progress s.consumer

variable {n : ℕ} {s t : State P C α} {a : Action P C α} {ms : List (Slot α)}

section Stuck

omit [DecidableEq C] [Fintype P] [Fintype C] in
theorem stepProducer_eq_none_iff {i : P} :
    s.stepProducer i = none ↔
      s.producer i = .outside ∨ ∃ msg, s.producer i = .token msg ∧ s.mutex = true := by
  cases hpc : s.producer i <;> simp [stepProducer, hpc]

omit [Fintype P] [Fintype C] in
theorem produce_eq_none_iff {i : P} {msg : α} :
    s.next (.produce i msg) = none ↔ (s.producer i = .outside → s.empty = 0) := by
  cases hpc : s.producer i <;> simp [next, hpc]

omit [DecidableEq P] [Fintype P] [Fintype C] in
theorem stepConsumer_eq_none_iff {j : C} :
    s.stepConsumer j = none ↔
      (s.consumer j = .outside ∧ s.full = 0) ∨ (s.consumer j = .token ∧ s.mutex = true) := by
  cases hpc : s.consumer j <;> simp [stepConsumer, hpc]

omit [DecidableEq P] [DecidableEq C] [Fintype P] [Fintype C] in
theorem stepMain_eq_none_iff :
    s.stepMain = none ↔ s.main = .menu ∨ (s.main = .waiting ∧ s.empty = 0) := by
  cases hpc : s.main <;> simp [stepMain, hpc]
  split <;> simp

/-- Where each thread stands when no thread can make a step. -/
structure Standstill (s : State P C α) : Prop where
  producer : ∀ i, (s.producer i = .outside ∧ s.empty = 0) ∨
    ∃ msg, s.producer i = .token msg ∧ s.mutex = true
  consumer : ∀ j, (s.consumer j = .outside ∧ s.full = 0) ∨
    (s.consumer j = .token ∧ s.mutex = true)
  main : s.main = .menu ∨ (s.main = .waiting ∧ s.empty = 0)

omit [Fintype P] [Fintype C] in
theorem stuck_iff_standstill [Nonempty α] : s.Stuck ↔ s.Standstill := by
  constructor
  · intro h
    refine ⟨fun i => ?_, fun j => ?_, ?_⟩
    · have hstep : s.stepProducer i = none := h (.producer i) (by simp)
      rcases stepProducer_eq_none_iff.mp hstep with hpc | htoken
      · obtain ⟨msg⟩ := ‹Nonempty α›
        exact .inl ⟨hpc, produce_eq_none_iff.mp (h (.produce i msg) (by simp)) hpc⟩
      · exact .inr htoken
    · exact stepConsumer_eq_none_iff.mp (h (.consumer j) (by simp))
    · exact stepMain_eq_none_iff.mp (h .main (by simp))
  · rintro ⟨hproducer, hconsumer, hmain⟩ a ⟨hgrow, hshrink⟩
    cases a with
    | produce i msg =>
      rw [produce_eq_none_iff]
      intro hpc
      rcases hproducer i with h | ⟨msg, h, -⟩
      · exact h.2
      · rw [hpc] at h
        cases h
    | producer i =>
      exact stepProducer_eq_none_iff.mpr ((hproducer i).imp And.left id)
    | consumer j => exact stepConsumer_eq_none_iff.mpr (hconsumer j)
    | main => exact stepMain_eq_none_iff.mpr hmain
    | incremSize => exact absurd rfl hgrow
    | discrSize => exact absurd rfl hshrink

omit [DecidableEq P] [DecidableEq C] [Fintype P] [Fintype C] in
theorem Standstill.producer_owns (h : s.Standstill) (i : P) : (s.producer i).owns = 0 := by
  rcases h.producer i with ⟨hpc, -⟩ | ⟨msg, hpc, -⟩ <;> rw [hpc] <;> rfl

omit [DecidableEq P] [DecidableEq C] [Fintype P] [Fintype C] in
theorem Standstill.consumer_owns (h : s.Standstill) (j : C) : (s.consumer j).owns = 0 := by
  rcases h.consumer j with ⟨hpc, -⟩ | ⟨hpc, -⟩ <;> rw [hpc] <;> rfl

omit [DecidableEq P] [DecidableEq C] in
/-- At a standstill with the main thread in its menu nobody has the mutex, so nobody holds a
token, and there is none to take. -/
theorem Standstill.sizeQueue_eq_zero [Nonempty P] [Nonempty C] (h : s.Standstill) (hs : s.Lawful)
    (hmenu : s.main = .menu) : s.mutex = false ∧ s.ring.sizeQueue = 0 := by
  have hmutex : s.mutex = false := by
    have hexclusive := hs.exclusive
    rw [Exclusive, total_eq_zero h.producer_owns, total_eq_zero h.consumer_owns,
      hmenu] at hexclusive
    exact Bool.toNat_eq_zero.mp hexclusive.symm
  have hproducer : ∀ i, s.producer i = .outside ∧ s.empty = 0 := by
    simpa [hmutex] using h.producer
  have hconsumer : ∀ j, s.consumer j = .outside ∧ s.full = 0 := by
    simpa [hmutex] using h.consumer
  have hempty := (hproducer (Classical.arbitrary P)).2
  have hfull := (hconsumer (Classical.arbitrary C)).2
  have hp : total ProducerPc.inFlight s.producer = 0 :=
    total_eq_zero fun i => by rw [(hproducer i).1]; rfl
  have hc : total ConsumerPc.inFlight s.consumer = 0 :=
    total_eq_zero fun j => by rw [(hconsumer j).1]; rfl
  have hbalanced := hs.balanced
  simp only [Balanced, inFlight, hmenu, hp, hc, hempty, hfull, MainPc.unposted,
    MainPc.owed] at hbalanced
  exact ⟨hmutex, by omega⟩

omit [DecidableEq P] [DecidableEq C] in
theorem Standstill.jammed [Nonempty P] [Nonempty C] (h : s.Standstill) (hs : s.Lawful) :
    s.Jammed := by
  rcases h.main with hmenu | ⟨hwaiting, hempty⟩
  · exact .inr ⟨hmenu, h.sizeQueue_eq_zero hs hmenu⟩
  · have hmutex := hs.exclusive.mutex_of_main (by rw [hwaiting]; rfl)
    refine .inl ⟨⟨hwaiting, hmutex, hempty⟩, ?_⟩
    by_contra hnone
    obtain ⟨hfull, hall⟩ := not_or.mp hnone
    refine hall fun j hpc => ?_
    rcases h.consumer j with hj | ⟨hj, -⟩
    · exact hfull hj.2
    · rw [hpc] at hj
      cases hj

omit [DecidableEq P] [DecidableEq C] [Fintype P] [Fintype C] in
/-- A producer outside its critical section. -/
theorem producer_of_owns {i : P} (h : (s.producer i).owns = 0) :
    s.producer i = .outside ∨ ∃ msg, s.producer i = .token msg := by
  cases hpc : s.producer i with
  | outside => exact .inl rfl
  | token msg => exact .inr ⟨msg, rfl⟩
  | locked _ | written | posted =>
    rw [hpc] at h
    cases h

omit [DecidableEq P] [DecidableEq C] [Fintype P] [Fintype C] in
theorem consumer_of_owns {j : C} (h : (s.consumer j).owns = 0) :
    s.consumer j = .outside ∨ s.consumer j = .token := by
  cases hpc : s.consumer j with
  | outside => exact .inl rfl
  | token => exact .inr rfl
  | locked | taken | posted =>
    rw [hpc] at h
    cases h

omit [DecidableEq P] [DecidableEq C] in
theorem Jammed.standstill (h : s.Jammed) (hs : s.Lawful) : s.Standstill := by
  rcases h with ⟨⟨hwaiting, hmutex, hempty⟩, hfull⟩ | ⟨hmenu, hmutex, hsize⟩
  · have howns : s.main.owns = 1 := by rw [hwaiting]; rfl
    refine ⟨fun i => ?_, fun j => ?_, .inr ⟨hwaiting, hempty⟩⟩
    · rcases producer_of_owns (hs.exclusive.producer_outside howns i) with hpc | ⟨msg, hpc⟩
      · exact .inl ⟨hpc, hempty⟩
      · exact .inr ⟨msg, hpc, hmutex⟩
    · rcases consumer_of_owns (hs.exclusive.consumer_outside howns j) with hpc | hpc
      · exact .inl ⟨hpc, hfull.resolve_right fun hall => hall j hpc⟩
      · exact .inr ⟨hpc, hmutex⟩
  · have hexclusive := hs.exclusive
    have hbalanced := hs.balanced
    simp only [Exclusive, hmutex, Bool.toNat_false] at hexclusive
    simp only [Balanced, inFlight, hmenu, hsize, MainPc.unposted, MainPc.owed] at hbalanced
    refine ⟨fun i => ?_, fun j => ?_, .inl hmenu⟩
    · have howns := apply_le_total ProducerPc.owns s.producer i
      have htoken := apply_le_total ProducerPc.inFlight s.producer i
      rcases producer_of_owns (s := s) (i := i) (by omega) with hpc | ⟨msg, hpc⟩
      · exact .inl ⟨hpc, by omega⟩
      · rw [hpc] at htoken
        simp only [ProducerPc.inFlight, ProducerPc.reserved, ProducerPc.unposted] at htoken
        omega
    · have howns := apply_le_total ConsumerPc.owns s.consumer j
      have htoken := apply_le_total ConsumerPc.inFlight s.consumer j
      rcases consumer_of_owns (s := s) (j := j) (by omega) with hpc | hpc
      · exact .inl ⟨hpc, by omega⟩
      · rw [hpc] at htoken
        simp only [ConsumerPc.inFlight, ConsumerPc.claimed, ConsumerPc.unposted] at htoken
        omega

/-- Whatever the threads and the resizes have done: no thread can make a step exactly where the
queue is jammed. -/
theorem run_stuck_iff_jammed [Nonempty P] [Nonempty C] [Nonempty α] (n : ℕ)
    (as : List (Action P C α)) (s : State P C α)
    (hrun : exec next (start n) as = some s) : s.Stuck ↔ s.Jammed := by
  have hs := run_lawful hrun
  rw [stuck_iff_standstill]
  exact ⟨fun h => h.jammed hs, fun h => h.standstill hs⟩

theorem run_stuck_iff_jammed_shrunk :
    ∃ s : State Unit Unit ℕ, exec next (start 1) [.discrSize, .main, .main, .main, .main] = some s ∧
      (s.Stuck ↔ s.Jammed) ∧ s.Jammed :=
  ⟨_, rfl, run_stuck_iff_jammed 1 [.discrSize, .main, .main, .main, .main] _ rfl,
    .inr ⟨rfl, rfl, rfl⟩⟩

end Stuck

section FixedCapacity

omit [DecidableEq C] in
theorem work_moveProducer {i : P} {old new : ProducerPc α} (hpc : s.producer i = old)
    {ring : Ring α} {empty full : ℕ} {mutex : Bool} {produced : List α}
    (hm : 5 * produced.length + new.progress = 5 * s.produced.length + old.progress + 1) :
    ({ s.setProducer i new with
        ring := ring, empty := empty, full := full, mutex := mutex, produced := produced } :
      State P C α).work = s.work + 1 := by
  have hp := total_setProducer ProducerPc.progress s i new hpc
  simp only [work, setProducer_consumer, setProducer_consumed]
  omega

omit [DecidableEq P] in
theorem work_moveConsumer {j : C} {old new : ConsumerPc} (hpc : s.consumer j = old)
    {ring : Ring α} {empty full : ℕ} {mutex : Bool} {consumed : List (Slot α)}
    (hm : 5 * consumed.length + new.progress = 5 * s.consumed.length + old.progress + 1) :
    ({ s.setConsumer j new with
        ring := ring, empty := empty, full := full, mutex := mutex, consumed := consumed } :
      State P C α).work = s.work + 1 := by
  have hc := total_setConsumer ConsumerPc.progress s j new hpc
  simp only [work, setConsumer_producer, setConsumer_produced]
  omega

/-- Each operation of a producer or a consumer is one unit of work. -/
theorem Step.work (h : Step s a t) (hmenu : s.main = .menu)
    (ha : a ≠ .incremSize ∧ a ≠ .discrSize) : t.work = s.work + 1 := by
  cases h with
  | waitEmpty i msg hpc hpos => exact work_moveProducer hpc rfl
  | lockProducer i msg hpc hfree => exact work_moveProducer hpc rfl
  | put i msg hpc =>
    refine work_moveProducer hpc ?_
    simp only [ProducerPc.progress, List.length_append, List.length_singleton]
    omega
  | postFull i hpc => exact work_moveProducer hpc rfl
  | unlockProducer i hpc => exact work_moveProducer hpc rfl
  | waitFull j hpc hpos => exact work_moveConsumer hpc rfl
  | lockConsumer j hpc hfree => exact work_moveConsumer hpc rfl
  | take j hpc =>
    refine work_moveConsumer hpc ?_
    simp only [ConsumerPc.progress, List.length_append, List.length_singleton]
    omega
  | postEmpty j hpc => exact work_moveConsumer hpc rfl
  | unlockConsumer j hpc => exact work_moveConsumer hpc rfl
  | lockGrow hpc hfree => exact absurd rfl ha.1
  | lockShrink hpc hfree => exact absurd rfl ha.2
  | grow hpc => rw [hmenu] at hpc; cases hpc
  | postGrown hpc => rw [hmenu] at hpc; cases hpc
  | shift hpc => rw [hmenu] at hpc; cases hpc
  | decide hpc hroom => rw [hmenu] at hpc; cases hpc
  | decline hpc hfull => rw [hmenu] at hpc; cases hpc
  | shrink hpc => rw [hmenu] at hpc; cases hpc
  | waitShrunk hpc hpos => rw [hmenu] at hpc; cases hpc
  | unlockMain hpc => rw [hmenu] at hpc; cases hpc

omit [DecidableEq P] [DecidableEq C] in
theorem work_start (n : ℕ) :
    (start n : State P C α).work = 2 * Fintype.card P + 2 * Fintype.card C := by
  have hp : total ProducerPc.progress (start n : State P C α).producer = Fintype.card P * 2 :=
    total_const fun _ => rfl
  have hc : total ConsumerPc.progress (start n : State P C α).consumer = Fintype.card C * 2 :=
    total_const fun _ => rfl
  rw [work, hp, hc]
  simp only [start, List.length_nil]
  omega

omit [DecidableEq P] [DecidableEq C] in
theorem work_le (s : State P C α) :
    s.work ≤ 5 * (s.produced.length + s.consumed.length) + 4 * Fintype.card P +
      4 * Fintype.card C := by
  have hp := total_le ProducerPc.progress_le s.producer
  have hc := total_le ConsumerPc.progress_le s.consumer
  rw [work]
  omega

omit [DecidableEq P] [DecidableEq C] in
theorem Bounded.produced_length (hs : s.Bounded n ms) :
    s.produced.length ≤ s.consumed.length + n := by
  have horder := congrArg List.length hs.order
  have hfree := hs.free
  rw [List.length_map, List.length_append] at horder
  omega

/-- At a fixed capacity the threads are never stuck, and whichever thread moves next, the messages
delivered keep up with the operations made. -/
theorem run_throughput [Nonempty P] [Nonempty C] [Nonempty α] (n : ℕ) (hn : 1 ≤ n)
    (as : List (Action P C α)) (s : State P C α)
    (hfixed : ∀ a ∈ as, a ≠ .incremSize ∧ a ≠ .discrSize)
    (hrun : exec next (start n) as = some s) :
    ¬ s.Stuck ∧ as.length ≤
      10 * s.consumed.length + 5 * n + 2 * Fintype.card P + 2 * Fintype.card C := by
  have hok : StepsMeet next (fun (_ : State P C α) a => a ≠ .incremSize ∧ a ≠ .discrSize)
      (start n) as := stepsMeet_of_forall (fun a ha _ => hfixed a ha) _
  have hstep : ∀ (s : State P C α) (a : Action P C α) (t : State P C α), (∃ ms, s.Bounded n ms) →
      a ≠ .incremSize ∧ a ≠ .discrSize → s.next a = some t → ∃ ms, t.Bounded n ms :=
    fun _ _ _ ⟨_, hms⟩ ha hnext => (next_step hnext).bounded hms ha
  obtain ⟨ms, hms⟩ := exec_invariant_of_steps hstep ⟨[], start_bounded n⟩ hok hrun
  constructor
  · rw [stuck_iff_standstill]
    intro hstill
    have hsize := (hstill.sizeQueue_eq_zero (run_lawful hrun) hms.menu).2
    rw [hms.size] at hsize
    omega
  · have hwork := exec_length_le_potential (m := work) 0 (fun _ => false) hstep
      (fun s a t ⟨_, hs⟩ ha hnext => Nat.le_of_eq ((next_step hnext).work hs.menu ha).symm)
      ⟨[], start_bounded n⟩ hok hrun
    have hle := work_le s
    have hproduced := hms.produced_length
    rw [work_start, Nat.zero_mul] at hwork
    omega

theorem run_throughput_one_slot :
    ∃ s : State (Fin 2) (Fin 2) ℕ, exec next (start 1) [.produce 1 7, .producer 1, .producer 1,
        .producer 1, .consumer 0, .producer 1, .consumer 0, .consumer 0, .consumer 0,
        .produce 0 8] = some s ∧
      ¬ s.Stuck ∧ 10 ≤ 10 * s.consumed.length + 5 * 1 + 2 * 2 + 2 * 2 :=
  ⟨_, rfl, run_throughput 1 (Nat.le_refl 1) [.produce 1 7, .producer 1, .producer 1, .producer 1,
    .consumer 0, .producer 1, .consumer 0, .consumer 0, .consumer 0, .produce 0 8] _
    (by decide) rfl⟩

end FixedCapacity

end State

end OsispLabs.Lab5.Semaphore
