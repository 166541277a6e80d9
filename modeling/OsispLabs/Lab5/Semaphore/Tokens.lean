import OsispLabs.Lab5.Semaphore.Queue

/-!
# Mutual exclusion and token conservation in `lab5_1.c`

Each unit of capacity is in `empty`, in `full`, or with one thread that has taken it from one
semaphore and not yet posted it to the other. Both laws hold in every reachable state, with the
resizes accounted for where they are half done.
-/
namespace OsispLabs.Lab5.Semaphore
open Lib

variable {P C α : Type*}

/-- One while the thread is between its lock and its unlock. -/
def ProducerPc.owns : ProducerPc α → ℕ
  | .locked _ | .written | .posted => 1
  | .outside | .token _ => 0

/-- One while the producer holds an `empty` token whose slot it has not written. -/
def ProducerPc.reserved : ProducerPc α → ℕ
  | .token _ | .locked _ => 1
  | .outside | .written | .posted => 0

/-- One while the message is in the ring and not yet posted to `full`. -/
def ProducerPc.unposted : ProducerPc α → ℕ
  | .written => 1
  | .outside | .token _ | .locked _ | .posted => 0

def ProducerPc.inFlight (pc : ProducerPc α) : ℕ := pc.reserved + pc.unposted

def ConsumerPc.owns : ConsumerPc → ℕ
  | .locked | .taken | .posted => 1
  | .outside | .token => 0

/-- One while the consumer holds a `full` token whose message it has not taken. -/
def ConsumerPc.claimed : ConsumerPc → ℕ
  | .token | .locked => 1
  | .outside | .taken | .posted => 0

/-- One while the message is out of the ring and its slot not yet posted to `empty`. -/
def ConsumerPc.unposted : ConsumerPc → ℕ
  | .taken => 1
  | .outside | .token | .locked | .posted => 0

def ConsumerPc.inFlight (pc : ConsumerPc) : ℕ := pc.claimed + pc.unposted

def MainPc.owns : MainPc → ℕ
  | .menu => 0
  | .growing | .grown | .shifting | .testing | .shrinking | .waiting | .leaving => 1

/-- One while `sizeQueue` is raised and `empty` not yet posted. -/
def MainPc.unposted : MainPc → ℕ
  | .grown => 1
  | .menu | .growing | .shifting | .testing | .shrinking | .waiting | .leaving => 0

/-- One while `sizeQueue` is lowered and the token not yet taken from `empty`. -/
def MainPc.owed : MainPc → ℕ
  | .waiting => 1
  | .menu | .growing | .grown | .shifting | .testing | .shrinking | .leaving => 0

variable [DecidableEq P] [DecidableEq C] [Fintype P] [Fintype C]

namespace State

/-- At most one thread is between its lock and its unlock, and the mutex says which case it is. -/
def Exclusive (s : State P C α) : Prop :=
  total ProducerPc.owns s.producer + total ConsumerPc.owns s.consumer + s.main.owns =
    s.mutex.toNat

/-- The threads that hold a token taken from one semaphore and not posted to the other. -/
def inFlight (s : State P C α) : ℕ :=
  total ProducerPc.inFlight s.producer + total ConsumerPc.inFlight s.consumer

/-- Token conservation. -/
def Balanced (s : State P C α) : Prop :=
  s.empty + s.full + s.inFlight + s.main.unposted = s.ring.sizeQueue + s.main.owed

/-- While `discrSize` has decided to shrink, there is capacity to remove. -/
def Shrinkable (s : State P C α) : Prop := s.main = .shrinking → 0 < s.ring.sizeQueue

omit [DecidableEq P] [DecidableEq C] in
theorem start_exclusive (n : ℕ) : (start n : State P C α).Exclusive := by
  have hp : total ProducerPc.owns (start n : State P C α).producer = 0 := total_eq_zero fun _ => rfl
  have hc : total ConsumerPc.owns (start n : State P C α).consumer = 0 := total_eq_zero fun _ => rfl
  rw [Exclusive, hp, hc]
  rfl

omit [DecidableEq P] [DecidableEq C] in
theorem start_balanced (n : ℕ) : (start n : State P C α).Balanced := by
  have hp : total ProducerPc.inFlight (start n : State P C α).producer = 0 :=
    total_eq_zero fun _ => rfl
  have hc : total ConsumerPc.inFlight (start n : State P C α).consumer = 0 :=
    total_eq_zero fun _ => rfl
  rw [Balanced, inFlight, hp, hc]
  rfl

variable {s t : State P C α} {a : Action P C α}

omit [DecidableEq C] [Fintype C] in
theorem total_setProducer (w : ProducerPc α → ℕ) (s : State P C α) (i : P) {old : ProducerPc α}
    (new : ProducerPc α) (hpc : s.producer i = old) :
    total w (s.setProducer i new).producer + w old = total w s.producer + w new :=
  hpc ▸ total_update w s.producer i new

omit [DecidableEq P] [Fintype P] in
theorem total_setConsumer (w : ConsumerPc → ℕ) (s : State P C α) (j : C) {old : ConsumerPc}
    (new : ConsumerPc) (hpc : s.consumer j = old) :
    total w (s.setConsumer j new).consumer + w old = total w s.consumer + w new :=
  hpc ▸ total_update w s.consumer j new

omit [DecidableEq C] in
theorem Exclusive.moveProducer (hs : s.Exclusive) {i : P} {old new : ProducerPc α}
    (hpc : s.producer i = old) {ring : Ring α} {empty full : ℕ} {mutex : Bool} {produced : List α}
    (hm : mutex.toNat + old.owns = s.mutex.toNat + new.owns) :
    ({ s.setProducer i new with
        ring := ring, empty := empty, full := full, mutex := mutex, produced := produced } :
      State P C α).Exclusive := by
  have hp := total_setProducer ProducerPc.owns s i new hpc
  simp only [Exclusive, setProducer_consumer, setProducer_main] at hs ⊢
  omega

omit [DecidableEq P] in
theorem Exclusive.moveConsumer (hs : s.Exclusive) {j : C} {old new : ConsumerPc}
    (hpc : s.consumer j = old) {ring : Ring α} {empty full : ℕ} {mutex : Bool}
    {consumed : List (Slot α)} (hm : mutex.toNat + old.owns = s.mutex.toNat + new.owns) :
    ({ s.setConsumer j new with
        ring := ring, empty := empty, full := full, mutex := mutex, consumed := consumed } :
      State P C α).Exclusive := by
  have hc := total_setConsumer ConsumerPc.owns s j new hpc
  simp only [Exclusive, setConsumer_producer, setConsumer_main] at hs ⊢
  omega

omit [DecidableEq P] [DecidableEq C] in
theorem Exclusive.moveMain (hs : s.Exclusive) {old new : MainPc} (hpc : s.main = old)
    {ring : Ring α} {empty : ℕ} {mutex : Bool}
    (hm : mutex.toNat + old.owns = s.mutex.toNat + new.owns) :
    ({ s with ring := ring, empty := empty, mutex := mutex, main := new } :
      State P C α).Exclusive := by
  subst hpc
  simp only [Exclusive] at hs ⊢
  omega

omit [DecidableEq P] [DecidableEq C] in
/-- A thread inside its critical section has the mutex. -/
theorem Exclusive.mutex_of_producer (hs : s.Exclusive) {i : P} (hi : (s.producer i).owns = 1) :
    s.mutex = true := by
  have hle := apply_le_total ProducerPc.owns s.producer i
  have hx : _ = s.mutex.toNat := hs
  cases hm : s.mutex with
  | true => rfl
  | false =>
    rw [hm, Bool.toNat_false] at hx
    omega

omit [DecidableEq P] [DecidableEq C] in
theorem Exclusive.mutex_of_consumer (hs : s.Exclusive) {j : C} (hj : (s.consumer j).owns = 1) :
    s.mutex = true := by
  have hle := apply_le_total ConsumerPc.owns s.consumer j
  have hx : _ = s.mutex.toNat := hs
  cases hm : s.mutex with
  | true => rfl
  | false =>
    rw [hm, Bool.toNat_false] at hx
    omega

omit [DecidableEq P] [DecidableEq C] in
theorem Exclusive.mutex_of_main (hs : s.Exclusive) (hmain : s.main.owns = 1) :
    s.mutex = true := by
  have hx : _ = s.mutex.toNat := hs
  cases hm : s.mutex with
  | true => rfl
  | false =>
    rw [hm, Bool.toNat_false] at hx
    omega

theorem Step.exclusive (h : Step s a t) (hs : s.Exclusive) : t.Exclusive := by
  cases h with
  | waitEmpty i msg hpc hpos => exact hs.moveProducer hpc rfl
  | lockProducer i msg hpc hfree => exact hs.moveProducer hpc (by rw [hfree]; rfl)
  | put i msg hpc => exact hs.moveProducer hpc rfl
  | postFull i hpc => exact hs.moveProducer hpc rfl
  | unlockProducer i hpc =>
    have hm := hs.mutex_of_producer (i := i) (by rw [hpc]; rfl)
    exact hs.moveProducer hpc (by rw [hm]; rfl)
  | waitFull j hpc hpos => exact hs.moveConsumer hpc rfl
  | lockConsumer j hpc hfree => exact hs.moveConsumer hpc (by rw [hfree]; rfl)
  | take j hpc => exact hs.moveConsumer hpc rfl
  | postEmpty j hpc => exact hs.moveConsumer hpc rfl
  | unlockConsumer j hpc =>
    have hm := hs.mutex_of_consumer (j := j) (by rw [hpc]; rfl)
    exact hs.moveConsumer hpc (by rw [hm]; rfl)
  | lockGrow hpc hfree => exact hs.moveMain hpc (by rw [hfree]; rfl)
  | grow hpc => exact hs.moveMain hpc rfl
  | postGrown hpc => exact hs.moveMain hpc rfl
  | shift hpc => exact hs.moveMain hpc rfl
  | lockShrink hpc hfree => exact hs.moveMain hpc (by rw [hfree]; rfl)
  | decide hpc hroom => exact hs.moveMain hpc rfl
  | decline hpc hfull => exact hs.moveMain hpc rfl
  | shrink hpc => exact hs.moveMain hpc rfl
  | waitShrunk hpc hpos => exact hs.moveMain hpc rfl
  | unlockMain hpc =>
    have hm := hs.mutex_of_main (by rw [hpc]; rfl)
    exact hs.moveMain hpc (by rw [hm]; rfl)

omit [DecidableEq C] in
theorem Balanced.moveProducer (hs : s.Balanced) {i : P} {old new : ProducerPc α}
    (hpc : s.producer i = old) {ring : Ring α} {empty full : ℕ} {mutex : Bool} {produced : List α}
    (hsize : ring.sizeQueue = s.ring.sizeQueue)
    (hm : empty + full + new.inFlight = s.empty + s.full + old.inFlight) :
    ({ s.setProducer i new with
        ring := ring, empty := empty, full := full, mutex := mutex, produced := produced } :
      State P C α).Balanced := by
  have hp := total_setProducer ProducerPc.inFlight s i new hpc
  simp only [Balanced, inFlight, setProducer_consumer, setProducer_main] at hs ⊢
  omega

omit [DecidableEq P] in
theorem Balanced.moveConsumer (hs : s.Balanced) {j : C} {old new : ConsumerPc}
    (hpc : s.consumer j = old) {ring : Ring α} {empty full : ℕ} {mutex : Bool}
    {consumed : List (Slot α)} (hsize : ring.sizeQueue = s.ring.sizeQueue)
    (hm : empty + full + new.inFlight = s.empty + s.full + old.inFlight) :
    ({ s.setConsumer j new with
        ring := ring, empty := empty, full := full, mutex := mutex, consumed := consumed } :
      State P C α).Balanced := by
  have hc := total_setConsumer ConsumerPc.inFlight s j new hpc
  simp only [Balanced, inFlight, setConsumer_producer, setConsumer_main] at hs ⊢
  omega

omit [DecidableEq P] [DecidableEq C] in
theorem Balanced.moveMain (hs : s.Balanced) {old new : MainPc} (hpc : s.main = old)
    {ring : Ring α} {empty : ℕ} {mutex : Bool}
    (hm : empty + new.unposted + s.ring.sizeQueue + old.owed =
      s.empty + old.unposted + ring.sizeQueue + new.owed) :
    ({ s with ring := ring, empty := empty, mutex := mutex, main := new } :
      State P C α).Balanced := by
  subst hpc
  simp only [Balanced, inFlight] at hs ⊢
  omega

/-- Token conservation is kept by every operation; only the half-done resizes shift it. -/
theorem Step.balanced (h : Step s a t) (hs : s.Balanced) (hroom : s.Shrinkable) : t.Balanced := by
  cases h with
  | waitEmpty i msg hpc hpos =>
    refine hs.moveProducer hpc rfl ?_
    simp only [ProducerPc.inFlight, ProducerPc.reserved, ProducerPc.unposted, setProducer_full]
    omega
  | lockProducer i msg hpc hfree => exact hs.moveProducer hpc rfl rfl
  | put i msg hpc => exact hs.moveProducer hpc rfl rfl
  | postFull i hpc =>
    refine hs.moveProducer hpc rfl ?_
    simp only [ProducerPc.inFlight, ProducerPc.reserved, ProducerPc.unposted, setProducer_empty]
    omega
  | unlockProducer i hpc => exact hs.moveProducer hpc rfl rfl
  | waitFull j hpc hpos =>
    refine hs.moveConsumer hpc rfl ?_
    simp only [ConsumerPc.inFlight, ConsumerPc.claimed, ConsumerPc.unposted, setConsumer_empty]
    omega
  | lockConsumer j hpc hfree => exact hs.moveConsumer hpc rfl rfl
  | take j hpc => exact hs.moveConsumer hpc rfl rfl
  | postEmpty j hpc =>
    refine hs.moveConsumer hpc rfl ?_
    simp only [ConsumerPc.inFlight, ConsumerPc.claimed, ConsumerPc.unposted, setConsumer_full]
    omega
  | unlockConsumer j hpc => exact hs.moveConsumer hpc rfl rfl
  | lockGrow hpc hfree => exact hs.moveMain hpc rfl
  | grow hpc =>
    refine hs.moveMain hpc ?_
    simp only [MainPc.unposted, MainPc.owed, Ring.grow]
    omega
  | postGrown hpc =>
    refine hs.moveMain hpc ?_
    simp only [MainPc.unposted, MainPc.owed]
  | shift hpc =>
    have hsize : (openGap s.ring).sizeQueue = s.ring.sizeQueue := by
      unfold openGap
      split <;> rfl
    refine hs.moveMain hpc ?_
    simp only [MainPc.unposted, MainPc.owed, hsize]
  | lockShrink hpc hfree => exact hs.moveMain hpc rfl
  | decide hpc hroom => exact hs.moveMain hpc rfl
  | decline hpc hfull => exact hs.moveMain hpc rfl
  | shrink hpc =>
    have hpos := hroom hpc
    refine hs.moveMain hpc ?_
    simp only [MainPc.unposted, MainPc.owed, Ring.shrink]
    omega
  | waitShrunk hpc hpos =>
    refine hs.moveMain hpc ?_
    simp only [MainPc.unposted, MainPc.owed]
    omega
  | unlockMain hpc => exact hs.moveMain hpc rfl

omit [Fintype P] [Fintype C] in
theorem Step.shrinkable (h : Step s a t) (hs : s.Shrinkable) : t.Shrinkable := by
  intro ht
  cases h with
  | waitEmpty i msg hpc hpos => exact hs ht
  | lockProducer i msg hpc hfree => exact hs ht
  | put i msg hpc => exact hs ht
  | postFull i hpc => exact hs ht
  | unlockProducer i hpc => exact hs ht
  | waitFull j hpc hpos => exact hs ht
  | lockConsumer j hpc hfree => exact hs ht
  | take j hpc => exact hs ht
  | postEmpty j hpc => exact hs ht
  | unlockConsumer j hpc => exact hs ht
  | decide hpc hroom =>
    change 0 < s.ring.sizeQueue
    omega
  | lockGrow hpc hfree => cases ht
  | grow hpc => cases ht
  | postGrown hpc => cases ht
  | shift hpc => cases ht
  | lockShrink hpc hfree => cases ht
  | decline hpc hfull => cases ht
  | shrink hpc => cases ht
  | waitShrunk hpc hpos => cases ht
  | unlockMain hpc => cases ht

/-- The laws of every reachable state, resizes included. -/
structure Lawful (s : State P C α) : Prop where
  exclusive : s.Exclusive
  balanced : s.Balanced
  shrinkable : s.Shrinkable

theorem next_lawful (s : State P C α) (a : Action P C α) (t : State P C α) (hs : s.Lawful)
    (h : s.next a = some t) : t.Lawful :=
  have hstep := next_step h
  ⟨hstep.exclusive hs.exclusive, hstep.balanced hs.balanced hs.shrinkable,
    hstep.shrinkable hs.shrinkable⟩

omit [DecidableEq P] [DecidableEq C] in
theorem start_lawful (n : ℕ) : (start n : State P C α).Lawful :=
  ⟨start_exclusive n, start_balanced n, fun h => nomatch h⟩

/-- Every reachable state has at most one thread in a critical section and conserves tokens. -/
theorem run_lawful {n : ℕ} {as : List (Action P C α)} {s : State P C α}
    (hrun : exec next (start n) as = some s) : s.Lawful :=
  exec_invariant next_lawful (start_lawful n) hrun

end State

end OsispLabs.Lab5.Semaphore
