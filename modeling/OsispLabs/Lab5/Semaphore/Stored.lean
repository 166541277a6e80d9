import OsispLabs.Lab5.Semaphore.Tokens

/-!
# Stored messages and tokens of `lab5_1.c` across resizes

`countAdd - countGet` counts the messages in the ring. Each of them is backed by a token in
`full`, by one that a consumer has taken for it, or by the post that its producer is about to
make. Neither resize touches this account, so with token conservation it bounds the messages by
the capacity.
-/
namespace OsispLabs.Lab5.Semaphore
open Lib

variable {P C α : Type*} [DecidableEq P] [DecidableEq C] [Fintype P] [Fintype C]

theorem ProducerPc.unposted_le_inFlight (pc : ProducerPc α) : pc.unposted ≤ pc.inFlight :=
  Nat.le_add_left _ _

theorem ProducerPc.unposted_le_owns (pc : ProducerPc α) : pc.unposted ≤ pc.owns := by
  cases pc <;> simp [unposted, owns]

theorem ConsumerPc.unposted_le_owns (pc : ConsumerPc) : pc.unposted ≤ pc.owns := by
  cases pc <;> simp [unposted, owns]

namespace State

/-- The tokens that back the stored messages: posted to `full`, taken by a consumer that has not
yet removed its message, or owed by a producer that has stored its message. -/
def fullTokens (s : State P C α) : ℕ :=
  s.full + total ConsumerPc.claimed s.consumer + total ProducerPc.unposted s.producer

/-- Every stored message is backed by one token. -/
def Backed (s : State P C α) : Prop := s.ring.countGet + s.fullTokens = s.ring.countAdd

/-- Both conservation laws outside the resizes, with the threads between a count and its post. -/
structure Conserves (s : State P C α) : Prop where
  capacity : s.empty + s.full + total ProducerPc.inFlight s.producer +
    total ConsumerPc.inFlight s.consumer = s.ring.sizeQueue
  stored : (s.full : ℤ) + total ConsumerPc.inFlight s.consumer +
    total ProducerPc.unposted s.producer =
      s.ring.countAdd - s.ring.countGet + total ConsumerPc.unposted s.consumer
  between : total ProducerPc.unposted s.producer + total ConsumerPc.unposted s.consumer ≤
    s.mutex.toNat
  within : (s.ring.countAdd : ℤ) - s.ring.countGet ≤ s.ring.sizeQueue

variable {s t : State P C α} {a : Action P C α}

omit [DecidableEq P] [DecidableEq C] in
theorem start_backed (n : ℕ) : (start n : State P C α).Backed := by
  have hp : total ProducerPc.unposted (start n : State P C α).producer = 0 :=
    total_eq_zero fun _ => rfl
  have hc : total ConsumerPc.claimed (start n : State P C α).consumer = 0 :=
    total_eq_zero fun _ => rfl
  rw [Backed, fullTokens, hp, hc]
  rfl

theorem openGap_counts (r : Ring α) :
    (openGap r).countAdd = r.countAdd ∧ (openGap r).countGet = r.countGet := by
  unfold openGap
  split <;> exact ⟨rfl, rfl⟩

theorem shrink_counts (r : Ring α) :
    r.shrink.countAdd = r.countAdd ∧ r.shrink.countGet = r.countGet := by
  simp only [Ring.shrink, Ring.squeeze]
  split_ifs <;> exact ⟨rfl, rfl⟩

omit [DecidableEq C] in
theorem fullTokens_moveProducer {i : P} {old new : ProducerPc α} (hpc : s.producer i = old)
    {ring : Ring α} {empty full : ℕ} {mutex : Bool} {produced : List α}
    (hm : ring.countGet + full + new.unposted + s.ring.countAdd =
      s.ring.countGet + s.full + old.unposted + ring.countAdd) :
    ring.countGet + ({ s.setProducer i new with
        ring := ring, empty := empty, full := full, mutex := mutex, produced := produced } :
      State P C α).fullTokens + s.ring.countAdd =
        s.ring.countGet + s.fullTokens + ring.countAdd := by
  have hp := total_setProducer ProducerPc.unposted s i new hpc
  simp only [fullTokens, setProducer_consumer]
  omega

omit [DecidableEq P] in
theorem fullTokens_moveConsumer {j : C} {old new : ConsumerPc} (hpc : s.consumer j = old)
    {ring : Ring α} {empty full : ℕ} {mutex : Bool} {consumed : List (Slot α)}
    (hm : ring.countGet + full + new.claimed + s.ring.countAdd =
      s.ring.countGet + s.full + old.claimed + ring.countAdd) :
    ring.countGet + ({ s.setConsumer j new with
        ring := ring, empty := empty, full := full, mutex := mutex, consumed := consumed } :
      State P C α).fullTokens + s.ring.countAdd =
        s.ring.countGet + s.fullTokens + ring.countAdd := by
  have hc := total_setConsumer ConsumerPc.claimed s j new hpc
  simp only [fullTokens, setConsumer_producer]
  omega

/-- An operation changes the tokens and the count of stored messages alike. -/
theorem Step.fullTokens (h : Step s a t) :
    t.ring.countGet + t.fullTokens + s.ring.countAdd =
      s.ring.countGet + s.fullTokens + t.ring.countAdd := by
  cases h with
  | waitEmpty i msg hpc hpos => exact fullTokens_moveProducer hpc rfl
  | lockProducer i msg hpc hfree => exact fullTokens_moveProducer hpc rfl
  | put i msg hpc =>
    refine fullTokens_moveProducer hpc ?_
    simp only [ProducerPc.unposted, Ring.put, setProducer_full]
    omega
  | postFull i hpc => exact fullTokens_moveProducer hpc rfl
  | unlockProducer i hpc => exact fullTokens_moveProducer hpc rfl
  | waitFull j hpc hpos =>
    refine fullTokens_moveConsumer hpc ?_
    simp only [ConsumerPc.claimed, setConsumer_ring]
    omega
  | lockConsumer j hpc hfree => exact fullTokens_moveConsumer hpc rfl
  | take j hpc =>
    refine fullTokens_moveConsumer hpc ?_
    simp only [ConsumerPc.claimed, Ring.take, setConsumer_full]
    omega
  | postEmpty j hpc => exact fullTokens_moveConsumer hpc rfl
  | unlockConsumer j hpc => exact fullTokens_moveConsumer hpc rfl
  | shift hpc =>
    have hcounts := openGap_counts s.ring
    simp only [State.fullTokens, hcounts]
  | shrink hpc =>
    have hcounts := shrink_counts s.ring
    simp only [State.fullTokens, hcounts]
  | lockGrow | grow | postGrown | lockShrink | decide | decline | waitShrunk | unlockMain => rfl

theorem next_backed (s : State P C α) (a : Action P C α) (t : State P C α) (hs : s.Backed)
    (h : s.next a = some t) : t.Backed := by
  have htokens := (next_step h).fullTokens
  rw [Backed] at hs ⊢
  omega

omit [DecidableEq P] [DecidableEq C] in
theorem Lawful.conserves (hs : s.Lawful) (hb : s.Backed) (hmenu : s.main = .menu) :
    s.Conserves := by
  have hbalanced := hs.balanced
  have hexclusive := hs.exclusive
  have hinFlight : total ConsumerPc.inFlight s.consumer =
      total ConsumerPc.claimed s.consumer + total ConsumerPc.unposted s.consumer :=
    total_add ConsumerPc.claimed ConsumerPc.unposted s.consumer
  have hproducer := total_mono ProducerPc.unposted_le_inFlight s.producer
  have hlockP := total_mono ProducerPc.unposted_le_owns s.producer
  have hlockC := total_mono ConsumerPc.unposted_le_owns s.consumer
  simp only [Balanced, inFlight, hmenu, MainPc.unposted, MainPc.owed] at hbalanced
  simp only [Exclusive, hmenu, MainPc.owns] at hexclusive
  simp only [Backed, fullTokens] at hb
  constructor
  · omega
  · omega
  · omega
  · omega

/-- Whatever the threads and the resizes have done before, both laws hold when the main thread is
in its menu. -/
theorem run_conserves (n : ℕ) (as : List (Action P C α)) (s : State P C α)
    (hrun : exec next (start n) as = some s) (hmenu : s.main = .menu) : s.Conserves :=
  (run_lawful hrun).conserves (exec_invariant next_backed (start_backed n) hrun) hmenu

theorem run_conserves_resized :
    ∃ s : State Bool Unit ℕ, exec next (start 10) [.produce true 7, .incremSize, .main, .main,
      .main, .main, .producer true, .producer true, .producer true, .produce false 8,
      .consumer ()] = some s ∧ s.Conserves :=
  ⟨_, rfl, run_conserves 10 [.produce true 7, .incremSize, .main, .main, .main, .main,
    .producer true, .producer true, .producer true, .produce false 8, .consumer ()] _ rfl rfl⟩

/-- A producer that has counted its message and not yet posted it. -/
theorem counted_before_posted :
    ¬ ∀ (as : List (Action Unit Unit ℕ)) (s : State Unit Unit ℕ),
      exec next (start 10) as = some s → s.main = .menu →
        s.empty + s.full + total ProducerPc.inFlight s.producer +
            total ConsumerPc.inFlight s.consumer = s.ring.sizeQueue ∧
          (s.full : ℤ) + total ConsumerPc.inFlight s.consumer =
            s.ring.countAdd - s.ring.countGet := by
  intro hall
  have hlaws := hall [.produce () 7, .producer (), .producer ()] _ rfl rfl
  exact absurd hlaws.2 (by decide)

end State

end OsispLabs.Lab5.Semaphore
