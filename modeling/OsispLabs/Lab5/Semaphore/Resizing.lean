import OsispLabs.Lab5.Semaphore.Fifo
import OsispLabs.Lab5.Semaphore.Stored
import OsispLabs.Lab5.Semaphore.Resize

/-!
# Delivery order of `lab5_1.c` across resizes

Each resize runs in four operations between which producers and consumers take and post tokens.
The ring keeps the unread messages through a resize under a condition on its cursors alone, and a
resize against that condition leaves a ring that does not hold them.
-/
namespace OsispLabs.Lab5.Semaphore
open Lib

section Ring

variable {α : Type*} {r : Ring α} {ms : List (Slot α)}

/-- The `count` messages end before the last slot, or there is no slot. -/
def Growable (r : Ring α) (count : ℕ) : Prop := r.head + count < r.sizeQueue ∨ r.sizeQueue = 0

/-- There is a free slot, and messages that start in slot 0 do not fill all the others. -/
def Compactable (r : Ring α) (count : ℕ) : Prop :=
  count < r.sizeQueue ∧ ¬ (r.head = 0 ∧ 0 < count ∧ count + 1 = r.sizeQueue)

instance (r : Ring α) (count : ℕ) : Decidable (Growable r count) :=
  inferInstanceAs (Decidable (_ ∨ _))

instance (r : Ring α) (count : ℕ) : Decidable (Compactable r count) :=
  inferInstanceAs (Decidable (_ ∧ _))

theorem cursors_of_growable (h : r.Holds ms) (hok : Growable r ms.length) :
    r.head ≤ r.tail ∧ r.tail = r.head + ms.length := by
  have htail := h.tail_eq
  rcases hok with hlt | hzero
  · rw [Nat.mod_eq_of_lt hlt] at htail
    omega
  · have hhead := h.head_eq_zero hzero
    have hle := h.length_le
    rw [hzero, Nat.mod_zero] at htail
    omega

theorem holds_grow (h : r.Holds ms) (hok : Growable r ms.length) : r.grow.Holds ms := by
  have hcursors := cursors_of_growable h hok
  have hsize := h.size
  have hlen := h.length_le
  have hend : r.head + ms.length < r.sizeQueue + 1 := by
    rcases hok with hlt | hzero
    · omega
    · have hhead := h.head_eq_zero hzero
      omega
  refine h.of_slots h.fault rfl ?_ ?_ ?_ ?_
  · change r.head < max (r.sizeQueue + 1) 1
    omega
  · change ms.length ≤ r.sizeQueue + 1
    omega
  · change r.tail = (r.head + ms.length) % (r.sizeQueue + 1)
    rw [Nat.mod_eq_of_lt hend, hcursors.2]
  · intro i hi
    have hlt : r.head + ms.length < r.sizeQueue := by
      rcases hok with hlt | hzero
      · exact hlt
      · omega
    change (if (r.head + i) % (r.sizeQueue + 1) < r.buffer.size ∧
      (r.head + i) % (r.sizeQueue + 1) < r.sizeQueue + 1 then
        r.buffer.slots ((r.head + i) % (r.sizeQueue + 1)) else .unwritten) = _
    rw [Nat.mod_eq_of_lt (by omega : r.head + i < r.sizeQueue + 1), if_pos (by omega),
      Nat.mod_eq_of_lt (by omega)]

/-- Where the messages reach the last slot, the larger ring has its `tail` elsewhere. -/
theorem not_holds_grow (h : r.Holds ms) (hnot : ¬ Growable r ms.length) : ¬ r.grow.Holds ms := by
  intro hgrow
  obtain ⟨hreach, hpos⟩ := not_or.mp hnot
  have hhead := h.head_lt_of_pos (Nat.pos_of_ne_zero hpos)
  have hold := h.tail_eq_ringIndex (Nat.pos_of_ne_zero hpos)
  have hnew := hgrow.tail_eq_ringIndex (Nat.succ_pos r.sizeQueue)
  change r.tail = ringIndex (r.sizeQueue + 1) r.head ms.length at hnew
  have hlen := h.length_le
  unfold ringIndex at hold hnew
  split_ifs at hold hnew <;> omega

theorem not_holds_shrink (h : r.Holds ms) (hpos : 0 < r.sizeQueue)
    (hnot : ¬ Compactable r ms.length) : ¬ r.shrink.Holds ms := by
  intro hshrink
  have hroom : ms.length ≤ r.sizeQueue - 1 := hshrink.length_le
  obtain ⟨hhead, hsome, hfill⟩ : r.head = 0 ∧ 0 < ms.length ∧ ms.length + 1 = r.sizeQueue := by
    by_contra hother
    exact hnot ⟨by omega, hother⟩
  have htail : r.tail = ms.length := by
    rw [h.tail_eq, hhead, Nat.zero_add, Nat.mod_eq_of_lt (by omega)]
  have hkept : r.shrink.tail = ms.length := by
    have hsqueeze : r.shrink.tail = r.squeeze.tail := rfl
    rw [hsqueeze, Ring.squeeze, if_pos (by omega), Ring.rewind_eq]
    change r.tail - r.head = ms.length
    omega
  have hbelow : r.shrink.tail < r.sizeQueue - 1 :=
    hshrink.tail_lt (by change 0 < r.sizeQueue - 1; omega)
  omega

end Ring

variable {P C α : Type*}

namespace State

/-- The messages in the ring by its own counters. -/
def storedCount (s : State P C α) : ℕ := s.ring.countAdd - s.ring.countGet

/-- The ring holds what has been produced and not yet consumed, in order. -/
structure InPlace (s : State P C α) : Prop where
  in_order : s.consumed <+: s.produced.map .message
  holds : s.ring.Holds s.unread

/-- The resizes that keep the ring in place. -/
def Keeps (s : State P C α) : Action P C α → Prop
  | .main => (s.main = .growing → Growable s.ring s.storedCount) ∧
      (s.main = .shrinking → Compactable s.ring s.storedCount)
  | .produce _ _ | .producer _ | .consumer _ | .incremSize | .discrSize => True

instance (s : State P C α) : (a : Action P C α) → Decidable (s.Keeps a)
  | .main => inferInstanceAs (Decidable (_ ∧ _))
  | .produce _ _ | .producer _ | .consumer _ | .incremSize | .discrSize => isTrue trivial

/-- The invariant: the ring holds the unread messages, and a ring just grown is unwrapped. -/
structure Queued (s : State P C α) (ms : List (Slot α)) : Prop where
  ring : s.ring.Holds ms
  order : s.produced.map .message = s.consumed ++ ms
  counts : s.ring.countAdd = s.ring.countGet + ms.length
  unwrapped : s.main = .grown ∨ s.main = .shifting → s.ring.head ≤ s.ring.tail

variable {n : ℕ} {s t : State P C α} {a : Action P C α} {ms : List (Slot α)}

theorem start_queued (n : ℕ) : (start n : State P C α).Queued [] where
  ring := Ring.init_holds n
  order := rfl
  counts := rfl
  unwrapped := by simp [start]

theorem Queued.unread_eq (hs : s.Queued ms) : s.unread = ms := by
  rw [unread, hs.order, List.drop_left]

theorem Queued.storedCount_eq (hs : s.Queued ms) : s.storedCount = ms.length := by
  rw [storedCount, hs.counts, Nat.add_sub_cancel_left]

theorem Queued.inPlace (hs : s.Queued ms) : s.InPlace where
  in_order := ⟨ms, hs.order.symm⟩
  holds := by
    rw [hs.unread_eq]
    exact hs.ring

/-- An operation that leaves the ring and the histories alone. -/
theorem Queued.frame (hs : s.Queued ms) (hring : t.ring = s.ring)
    (hproduced : t.produced = s.produced) (hconsumed : t.consumed = s.consumed)
    (hmain : t.main = .grown ∨ t.main = .shifting → s.main = .grown ∨ s.main = .shifting) :
    t.Queued ms where
  ring := hring ▸ hs.ring
  order := by
    rw [hproduced, hconsumed]
    exact hs.order
  counts := by
    rw [hring]
    exact hs.counts
  unwrapped ht := by
    rw [hring]
    exact hs.unwrapped (hmain ht)

variable [DecidableEq P] [DecidableEq C] [Fintype P] [Fintype C]

omit [DecidableEq P] [DecidableEq C] in
/-- While another thread is inside its critical section, the main thread is in its menu. -/
theorem Exclusive.menu (hs : s.Exclusive)
    (howner : 0 < total ProducerPc.owns s.producer + total ConsumerPc.owns s.consumer) :
    s.main = .menu := by
  have hx : _ = s.mutex.toNat := hs
  have hm := s.mutex.toNat_le
  have hmain : s.main.owns = 0 := by omega
  cases hpc : s.main with
  | menu => rfl
  | growing | grown | shifting | testing | shrinking | waiting | leaving =>
    rw [hpc] at hmain
    cases hmain

omit [DecidableEq P] [DecidableEq C] in
/-- A producer about to write finds a free slot, whatever resizes there have been. -/
theorem Lawful.room (hl : s.Lawful) (hb : s.Backed) {i : P} {msg : α}
    (hpc : s.producer i = .locked msg) :
    s.main = .menu ∧ s.ring.countAdd < s.ring.countGet + s.ring.sizeQueue := by
  have howns := apply_le_total ProducerPc.owns s.producer i
  have hreserved := apply_le_total ProducerPc.reserved s.producer i
  rw [hpc] at howns hreserved
  simp only [ProducerPc.owns, ProducerPc.reserved] at howns hreserved
  have hmenu := hl.exclusive.menu (by omega)
  have hbalanced := hl.balanced
  have hproducer : total ProducerPc.inFlight s.producer =
      total ProducerPc.reserved s.producer + total ProducerPc.unposted s.producer :=
    total_add ProducerPc.reserved ProducerPc.unposted s.producer
  have hconsumer : total ConsumerPc.inFlight s.consumer =
      total ConsumerPc.claimed s.consumer + total ConsumerPc.unposted s.consumer :=
    total_add ConsumerPc.claimed ConsumerPc.unposted s.consumer
  simp only [Balanced, inFlight, hmenu, MainPc.unposted, MainPc.owed] at hbalanced
  simp only [Backed, fullTokens] at hb
  exact ⟨hmenu, by omega⟩

omit [DecidableEq P] [DecidableEq C] in
/-- A consumer about to read finds a message. -/
theorem Lawful.message (hl : s.Lawful) (hb : s.Backed) {j : C} (hpc : s.consumer j = .locked) :
    s.main = .menu ∧ s.ring.countGet < s.ring.countAdd := by
  have howns := apply_le_total ConsumerPc.owns s.consumer j
  have hclaimed := apply_le_total ConsumerPc.claimed s.consumer j
  rw [hpc] at howns hclaimed
  simp only [ConsumerPc.owns, ConsumerPc.claimed] at howns hclaimed
  have hmenu := hl.exclusive.menu (by omega)
  simp only [Backed, fullTokens] at hb
  exact ⟨hmenu, by omega⟩

omit [DecidableEq C] in
theorem Queued.put (hs : s.Queued ms) (hl : s.Lawful) (hb : s.Backed) {i : P} {msg : α}
    (hpc : s.producer i = .locked msg) :
    ({ s.setProducer i .written with
        ring := s.ring.put msg
        produced := s.produced ++ [msg] } : State P C α).Queued (ms ++ [.message msg]) := by
  obtain ⟨hmenu, hroom⟩ := hl.room hb hpc
  have hcounts := hs.counts
  refine ⟨hs.ring.put (by omega) msg, ?_, ?_, ?_⟩
  · change (s.produced ++ [msg]).map _ = s.consumed ++ _
    rw [List.map_append, hs.order, List.append_assoc]
    rfl
  · change s.ring.countAdd + 1 = s.ring.countGet + _
    rw [List.length_append, List.length_singleton]
    omega
  · simp [hmenu]

omit [DecidableEq P] [Fintype P] [Fintype C] in
theorem Queued.take {x : Slot α} (hs : s.Queued (x :: ms)) (hmenu : s.main = .menu) {j : C} :
    ({ s.setConsumer j .taken with
        ring := s.ring.take.2
        consumed := s.consumed ++ [s.ring.take.1] } : State P C α).Queued ms := by
  have hcounts := hs.counts
  refine ⟨hs.ring.take_snd, ?_, ?_, ?_⟩
  · change s.produced.map _ = (s.consumed ++ [s.ring.take.1]) ++ ms
    rw [hs.order, hs.ring.take_fst, List.append_assoc]
    rfl
  · change s.ring.countAdd = s.ring.countGet + 1 + ms.length
    rw [List.length_cons] at hcounts
    omega
  · simp [hmenu]

/-- Every operation keeps the ring in place, a resize where it may. -/
theorem Step.queued (h : Step s a t) (hl : s.Lawful) (hb : s.Backed) (hs : s.Queued ms)
    (hok : s.Keeps a) : ∃ ms', t.Queued ms' := by
  cases h with
  | put i msg hpc => exact ⟨_, hs.put hl hb hpc⟩
  | take j hpc =>
    obtain ⟨hmenu, hsome⟩ := hl.message hb hpc
    have hcounts := hs.counts
    cases ms with
    | nil =>
      rw [List.length_nil] at hcounts
      omega
    | cons x ms => exact ⟨ms, hs.take hmenu⟩
  | grow hpc =>
    have hgrowable := hok.1 hpc
    rw [hs.storedCount_eq] at hgrowable
    exact ⟨ms, holds_grow hs.ring hgrowable, hs.order, hs.counts,
      fun _ => (cursors_of_growable hs.ring hgrowable).1⟩
  | shift hpc =>
    have hopen : openGap s.ring = s.ring :=
      if_neg (Nat.not_lt.mpr (hs.unwrapped (.inr hpc)))
    exact ⟨ms, hs.frame hopen rfl rfl (by simp)⟩
  | shrink hpc =>
    have hcompactable := hok.2 hpc
    rw [hs.storedCount_eq] at hcompactable
    have hcounts := shrink_counts s.ring
    refine ⟨ms, hs.ring.shrink hcompactable.1 hcompactable.2, hs.order, ?_, by simp⟩
    simp only [hcounts]
    exact hs.counts
  | postGrown hpc => exact ⟨ms, hs.frame rfl rfl rfl fun _ => .inl hpc⟩
  | lockGrow | lockShrink | decide | decline | waitShrunk | unlockMain =>
    exact ⟨ms, hs.frame rfl rfl rfl (by simp)⟩
  | waitEmpty | lockProducer | postFull | unlockProducer | waitFull | lockConsumer | postEmpty
  | unlockConsumer => exact ⟨ms, hs.frame rfl rfl rfl id⟩

/-- A resize against the condition leaves a ring that does not hold the unread messages. -/
theorem Step.displaced (h : Step s a t) (hl : s.Lawful) (hs : s.Queued ms) (hnot : ¬ s.Keeps a) :
    ¬ t.InPlace := by
  have hunread := hs.unread_eq
  have hstored := hs.storedCount_eq
  cases h with
  | grow hpc =>
    intro hplace
    have hholds : s.ring.grow.Holds s.unread := hplace.holds
    rw [hunread] at hholds
    refine not_holds_grow hs.ring (fun hok => hnot ?_) hholds
    rw [Keeps, hpc, hstored]
    exact ⟨fun _ => hok, nofun⟩
  | shrink hpc =>
    intro hplace
    have hholds : s.ring.shrink.Holds s.unread := hplace.holds
    rw [hunread] at hholds
    refine not_holds_shrink hs.ring (hl.shrinkable hpc) (fun hok => hnot ?_) hholds
    rw [Keeps, hpc, hstored]
    exact ⟨nofun, fun _ => hok⟩
  | postGrown hpc | shift hpc | decide hpc | decline hpc | waitShrunk hpc | unlockMain hpc =>
    refine absurd ?_ hnot
    rw [Keeps, hpc]
    exact ⟨nofun, nofun⟩
  | waitEmpty | lockProducer | put | postFull | unlockProducer | waitFull | lockConsumer | take
  | postEmpty | unlockConsumer | lockGrow | lockShrink => exact absurd trivial hnot

/-- In every interleaving of producers, consumers and resizes, the ring holds the unread messages
in every state exactly when every resize finds them where it can keep them. -/
theorem run_inPlace_iff (n : ℕ) {as : List (Action P C α)} {s : State P C α}
    (hrun : exec next (start n) as = some s) :
    Throughout next InPlace (start n) as ↔ StepsMeet next Keeps (start n) as := by
  have hstart : (start n : State P C α).Lawful ∧ (start n : State P C α).Backed ∧
      ∃ ms, (start n : State P C α).Queued ms :=
    ⟨start_lawful n, start_backed n, [], start_queued n⟩
  refine throughout_iff_stepsMeet
    (I := fun s : State P C α => s.Lawful ∧ s.Backed ∧ ∃ ms, s.Queued ms) ?_ ?_ ?_ hstart hrun
  · rintro s a t ⟨hl, hb, ms, hs⟩ hok hnext
    exact ⟨next_lawful s a t hl hnext, next_backed s a t hb hnext,
      (next_step hnext).queued hl hb hs hok⟩
  · rintro s ⟨-, -, ms, hs⟩
    exact hs.inPlace
  · rintro s a t ⟨hl, -, ms, hs⟩ hnot hnext
    exact (next_step hnext).displaced hl hs hnot

/-- A growth and a shrink while a producer is on its way to the mutex. -/
theorem run_inPlace_iff_resized :
    ∃ s : State Bool Unit ℕ, exec next (start 2) [.produce true 7, .incremSize, .main, .main,
      .produce false 8, .main, .main, .producer true, .producer true, .producer true,
      .producer true, .consumer (), .discrSize, .main, .main, .main] = some s ∧
      Throughout next InPlace (start 2) [.produce true 7, .incremSize, .main, .main,
        .produce false 8, .main, .main, .producer true, .producer true, .producer true,
        .producer true, .consumer (), .discrSize, .main, .main, .main] :=
  ⟨_, rfl, (run_inPlace_iff 2 rfl).mpr (by decide)⟩

end State

end OsispLabs.Lab5.Semaphore
