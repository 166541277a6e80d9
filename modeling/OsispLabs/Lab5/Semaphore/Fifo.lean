import OsispLabs.Lab5.Semaphore.Tokens

/-!
# Delivery order of `lab5_1.c` at a fixed capacity

Without a resize the ring always holds the messages produced and not yet consumed. Its length is
not readable from the semaphores alone: tokens held by threads on their way to the mutex, and
posts not yet made, are counted in.
-/
namespace OsispLabs.Lab5.Semaphore
open Lib

variable {P C α : Type*} [DecidableEq P] [DecidableEq C] [Fintype P] [Fintype C]

namespace State

/-- The messages produced and not yet consumed, oldest first. -/
def unread (s : State P C α) : List (Slot α) :=
  (s.produced.map .message).drop s.consumed.length

/-- What a bounded queue of capacity `n` shows at every moment. -/
structure Delivers (n : ℕ) (s : State P C α) : Prop where
  in_order : s.consumed <+: s.produced.map .message
  in_place : ∀ (k : ℕ) (hk : k < s.unread.length),
    s.ring.buffer.slots ((s.ring.head + k) % n) = s.unread[k]
  producer_free : ∀ i msg, s.producer i = .locked msg →
    ∀ k < s.unread.length, (s.ring.head + k) % n ≠ s.ring.tail
  consumer_oldest : ∀ j, s.consumer j = .locked →
    s.unread.head? = some (s.ring.buffer.slots s.ring.head)
  head_lt : s.ring.head < n
  tail_lt : s.ring.tail < n
  in_block : s.ring.buffer.fault = false

/-- The invariant: the ring holds the unread messages `ms`, every free slot is accounted for by
`empty`, a reservation or a pending post, and every message by `full`, a claim or a pending post. -/
structure Bounded (n : ℕ) (s : State P C α) (ms : List (Slot α)) : Prop where
  menu : s.main = .menu
  size : s.ring.sizeQueue = n
  ring : s.ring.Holds ms
  order : s.produced.map .message = s.consumed ++ ms
  free : s.empty + total ProducerPc.reserved s.producer + ms.length +
    total ConsumerPc.unposted s.consumer = n
  stored : s.full + total ConsumerPc.claimed s.consumer +
    total ProducerPc.unposted s.producer = ms.length

variable {n : ℕ} {s t : State P C α} {a : Action P C α} {ms : List (Slot α)}

omit [DecidableEq P] [DecidableEq C] in
theorem start_bounded (n : ℕ) : (start n : State P C α).Bounded n [] where
  menu := rfl
  size := rfl
  ring := Ring.init_holds n
  order := rfl
  free := by
    have hp : total ProducerPc.reserved (start n : State P C α).producer = 0 :=
      total_eq_zero fun _ => rfl
    have hc : total ConsumerPc.unposted (start n : State P C α).consumer = 0 :=
      total_eq_zero fun _ => rfl
    rw [hp, hc]
    rfl
  stored := by
    have hp : total ProducerPc.unposted (start n : State P C α).producer = 0 :=
      total_eq_zero fun _ => rfl
    have hc : total ConsumerPc.claimed (start n : State P C α).consumer = 0 :=
      total_eq_zero fun _ => rfl
    rw [hp, hc]
    rfl

omit [DecidableEq P] [DecidableEq C] in
/-- A producer about to write has a free slot reserved. -/
theorem Bounded.length_lt (hs : s.Bounded n ms) {i : P} (hi : 0 < (s.producer i).reserved) :
    ms.length < n := by
  have hle := apply_le_total ProducerPc.reserved s.producer i
  have hfree := hs.free
  omega

omit [DecidableEq P] [DecidableEq C] in
/-- A consumer about to read has a message claimed. -/
theorem Bounded.length_pos (hs : s.Bounded n ms) {j : C} (hj : 0 < (s.consumer j).claimed) :
    0 < ms.length := by
  have hle := apply_le_total ConsumerPc.claimed s.consumer j
  have hstored := hs.stored
  omega

omit [DecidableEq C] in
theorem Bounded.put (hs : s.Bounded n ms) {i : P} {msg : α} (hpc : s.producer i = .locked msg) :
    ({ s.setProducer i .written with
        ring := s.ring.put msg
        produced := s.produced ++ [msg] } : State P C α).Bounded n (ms ++ [.message msg]) where
  menu := hs.menu
  size := hs.size
  ring := by
    have hlt := hs.length_lt (i := i) (by rw [hpc]; exact Nat.one_pos)
    exact hs.ring.put (hs.size.symm ▸ hlt) msg
  order := by
    change (s.produced ++ [msg]).map _ = s.consumed ++ _
    rw [List.map_append, hs.order, List.append_assoc]
    rfl
  free := by
    have hp := total_setProducer ProducerPc.reserved s i .written hpc
    have hfree := hs.free
    simp only [ProducerPc.reserved, setProducer_consumer, setProducer_empty, List.length_append,
      List.length_singleton] at hp ⊢
    omega
  stored := by
    have hp := total_setProducer ProducerPc.unposted s i .written hpc
    have hstored := hs.stored
    simp only [ProducerPc.unposted, setProducer_consumer, setProducer_full, List.length_append,
      List.length_singleton] at hp ⊢
    omega

omit [DecidableEq P] in
theorem Bounded.take {x : Slot α} (hs : s.Bounded n (x :: ms)) {j : C}
    (hpc : s.consumer j = .locked) :
    ({ s.setConsumer j .taken with
        ring := s.ring.take.2
        consumed := s.consumed ++ [s.ring.take.1] } : State P C α).Bounded n ms where
  menu := hs.menu
  size := hs.size
  ring := hs.ring.take_snd
  order := by
    change s.produced.map _ = (s.consumed ++ [s.ring.take.1]) ++ ms
    rw [hs.order, hs.ring.take_fst, List.append_assoc]
    rfl
  free := by
    have hc := total_setConsumer ConsumerPc.unposted s j .taken hpc
    have hfree := hs.free
    simp only [ConsumerPc.unposted, setConsumer_producer, setConsumer_empty,
      List.length_cons] at hc hfree ⊢
    omega
  stored := by
    have hc := total_setConsumer ConsumerPc.claimed s j .taken hpc
    have hstored := hs.stored
    simp only [ConsumerPc.claimed, setConsumer_producer, setConsumer_full,
      List.length_cons] at hc hstored ⊢
    omega

omit [DecidableEq C] in
/-- A producer that moves between its slot write and its other operations keeps the invariant
when the semaphores make up for the counts. -/
theorem Bounded.moveProducer (hs : s.Bounded n ms) {i : P} {old new : ProducerPc α}
    (hpc : s.producer i = old) {empty full : ℕ} {mutex : Bool}
    (he : empty + new.reserved = s.empty + old.reserved)
    (hf : full + new.unposted = s.full + old.unposted) :
    ({ s.setProducer i new with empty := empty, full := full, mutex := mutex } :
      State P C α).Bounded n ms where
  menu := hs.menu
  size := hs.size
  ring := hs.ring
  order := hs.order
  free := by
    have hp := total_setProducer ProducerPc.reserved s i new hpc
    have hfree := hs.free
    simp only [setProducer_consumer]
    omega
  stored := by
    have hp := total_setProducer ProducerPc.unposted s i new hpc
    have hstored := hs.stored
    simp only [setProducer_consumer]
    omega

omit [DecidableEq P] in
theorem Bounded.moveConsumer (hs : s.Bounded n ms) {j : C} {old new : ConsumerPc}
    (hpc : s.consumer j = old) {empty full : ℕ} {mutex : Bool}
    (he : empty + new.unposted = s.empty + old.unposted)
    (hf : full + new.claimed = s.full + old.claimed) :
    ({ s.setConsumer j new with empty := empty, full := full, mutex := mutex } :
      State P C α).Bounded n ms where
  menu := hs.menu
  size := hs.size
  ring := hs.ring
  order := hs.order
  free := by
    have hc := total_setConsumer ConsumerPc.unposted s j new hpc
    have hfree := hs.free
    simp only [setConsumer_producer]
    omega
  stored := by
    have hc := total_setConsumer ConsumerPc.claimed s j new hpc
    have hstored := hs.stored
    simp only [setConsumer_producer]
    omega

theorem Step.bounded (h : Step s a t) (hs : s.Bounded n ms)
    (ha : a ≠ .incremSize ∧ a ≠ .discrSize) : ∃ ms', t.Bounded n ms' := by
  have hmenu := hs.menu
  cases h with
  | waitEmpty i msg hpc hpos => exact ⟨ms, hs.moveProducer hpc (Nat.sub_add_cancel hpos) rfl⟩
  | lockProducer i msg hpc hfree => exact ⟨ms, hs.moveProducer hpc rfl rfl⟩
  | put i msg hpc => exact ⟨_, hs.put hpc⟩
  | postFull i hpc => exact ⟨ms, hs.moveProducer hpc rfl rfl⟩
  | unlockProducer i hpc => exact ⟨ms, hs.moveProducer hpc rfl rfl⟩
  | waitFull j hpc hpos => exact ⟨ms, hs.moveConsumer hpc rfl (Nat.sub_add_cancel hpos)⟩
  | lockConsumer j hpc hfree => exact ⟨ms, hs.moveConsumer hpc rfl rfl⟩
  | take j hpc =>
    have hpos := hs.length_pos (j := j) (by rw [hpc]; exact Nat.one_pos)
    cases ms with
    | nil => exact absurd hpos (Nat.lt_irrefl 0)
    | cons x ms => exact ⟨ms, hs.take hpc⟩
  | postEmpty j hpc => exact ⟨ms, hs.moveConsumer hpc rfl rfl⟩
  | unlockConsumer j hpc => exact ⟨ms, hs.moveConsumer hpc rfl rfl⟩
  | lockGrow hpc hfree => exact absurd rfl ha.1
  | lockShrink hpc hfree => exact absurd rfl ha.2
  | grow hpc => rw [hmenu] at hpc; cases hpc
  | postGrown hpc => rw [hmenu] at hpc; cases hpc
  | shift hpc => rw [hmenu] at hpc; cases hpc
  | decide hpc hroom => rw [hmenu] at hpc; cases hpc
  | decline hpc hfull => rw [hmenu] at hpc; cases hpc
  | shrink hpc => rw [hmenu] at hpc; cases hpc
  | waitShrunk hpc hpos => rw [hmenu] at hpc; cases hpc
  | unlockMain hpc => rw [hmenu] at hpc; cases hpc

omit [DecidableEq P] [DecidableEq C] in
theorem Bounded.unread_eq (hs : s.Bounded n ms) : s.unread = ms := by
  rw [unread, hs.order, List.drop_left]

omit [DecidableEq P] [DecidableEq C] in
theorem Bounded.delivers (hn : 1 ≤ n) (hs : s.Bounded n ms) : s.Delivers n where
  in_order := ⟨ms, hs.order.symm⟩
  in_place k hk := by
    have hslot := hs.ring.slot_eq (i := k) (by rw [← hs.unread_eq]; exact hk)
    simp only [hs.unread_eq]
    rw [← hslot, hs.size]
  producer_free i msg hpc k hk := by
    have hlt := hs.length_lt (i := i) (by rw [hpc]; exact Nat.one_pos)
    rw [hs.unread_eq] at hk
    have hne := hs.ring.tail_free (hs.size.symm ▸ hlt) hk
    rwa [hs.size] at hne
  consumer_oldest j hpc := by
    have hpos := hs.length_pos (j := j) (by rw [hpc]; exact Nat.one_pos)
    have hslot := hs.ring.slot_eq hpos
    have hh := hs.ring.head_lt_of_pos (by rw [hs.size]; exact hn)
    rw [Nat.add_zero, Nat.mod_eq_of_lt hh] at hslot
    rw [hs.unread_eq, hslot, List.head?_eq_getElem?, List.getElem?_eq_getElem hpos]
  head_lt := by
    have hh := hs.ring.head_lt_of_pos (by rw [hs.size]; exact hn)
    rwa [hs.size] at hh
  tail_lt := by
    have ht := hs.ring.tail_lt (by rw [hs.size]; exact hn)
    rwa [hs.size] at ht
  in_block := hs.ring.fault

/-- Every interleaving of producers and consumers at a fixed capacity delivers in order and
touches only the slots it owns. -/
theorem run_delivers (n : ℕ) (hn : 1 ≤ n) (as : List (Action P C α)) (s : State P C α)
    (hfixed : ∀ a ∈ as, a ≠ .incremSize ∧ a ≠ .discrSize)
    (hrun : exec next (start n) as = some s) : s.Delivers n := by
  have hok : StepsMeet next (fun (_ : State P C α) a => a ≠ .incremSize ∧ a ≠ .discrSize)
      (start n) as := stepsMeet_of_forall (fun a ha _ => hfixed a ha) _
  obtain ⟨ms, hms⟩ := exec_invariant_of_steps (I := fun s : State P C α => ∃ ms, s.Bounded n ms)
    (fun _ _ _ ⟨_, hms⟩ ha hnext => (next_step hnext).bounded hms ha)
    ⟨[], start_bounded n⟩ hok hrun
  exact hms.delivers hn

theorem run_delivers_one_slot :
    ∃ s : State (Fin 2) (Fin 2) ℕ, exec next (start 1) [.produce 1 7, .producer 1, .producer 1,
      .producer 1, .consumer 0, .producer 1, .consumer 0, .consumer 0, .consumer 0,
      .produce 0 8] = some s ∧ s.Delivers 1 :=
  ⟨_, rfl, run_delivers 1 (Nat.le_refl 1) [.produce 1 7, .producer 1, .producer 1, .producer 1,
    .consumer 0, .producer 1, .consumer 0, .consumer 0, .consumer 0, .produce 0 8] _
    (by decide) rfl⟩

end State

end OsispLabs.Lab5.Semaphore
