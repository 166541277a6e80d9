import OsispLabs.Lab5.RingList
import OsispLabs.Lib.Execution

/-!
# The monitor queue of `lab5_2.c`

The four critical sections run under `queue.mutex`, and the histories of the messages that they
insert and hand out.
-/
namespace OsispLabs.Lab5.Condvar
open Lib

variable {α : Type*}

/-- `MessageQueue` of `lab5_2.c`, with the global `sizeQueue` in the ring. -/
structure Queue (α : Type*) extends Ring α where
  countMsg : ℕ

namespace Queue

/-- `init_queue` with the initial `sizeQueue = 10`. -/
def init_queue : Queue α := { Ring.init 10 with countMsg := 0 }

/-- `workProducer` from `countAdd++` to `++countMsg`. -/
def insert (q : Queue α) (msg : α) : Queue α :=
  { q with toRing := q.toRing.put msg, countMsg := q.countMsg + 1 }

/-- `workConsumer` from `countGet++` to the wrap of `head`. -/
def takeHead (q : Queue α) : Slot α × Queue α :=
  (q.toRing.take.1, { q with toRing := q.toRing.take.2 })

/-- `--queue.countMsg` -/
def decrement (q : Queue α) : Queue α := { q with countMsg := q.countMsg - 1 }

/-- `sizeQueue++` and `realloc` of `incremSize`. -/
def enlarge (q : Queue α) : Queue α := { q with toRing := q.toRing.grow }

/-- The shift of `incremSize`: the segment from `head` moves up and `head` follows it. -/
def openGap (q : Queue α) : Queue α :=
  if q.tail < q.head then
    { q with buffer := q.buffer.shiftUp q.head (q.sizeQueue - 1), head := q.head + 1 }
  else q

def incremSize (q : Queue α) : Queue α := q.enlarge.openGap

def discrSize (q : Queue α) : Queue α :=
  if q.countMsg < q.sizeQueue then { q with toRing := q.toRing.shrink } else q

/-- The unread messages, oldest first. -/
def messages (q : Queue α) : List (Slot α) := q.pending q.countMsg

/-- The queue is a well-formed ring that holds `ms`, and `countMsg` counts them. -/
structure Holds (q : Queue α) (ms : List (Slot α)) : Prop where
  ring : q.toRing.Holds ms
  count : q.countMsg = ms.length

variable {q : Queue α} {ms : List (Slot α)}

theorem Holds.messages_eq (h : q.Holds ms) : q.messages = ms := by
  rw [messages, h.count]
  exact h.ring.cells

theorem Holds.countMsg_le (h : q.Holds ms) : q.countMsg ≤ q.sizeQueue :=
  h.count ▸ h.ring.length_le

theorem init_queue_holds : (init_queue : Queue α).Holds [] := ⟨Ring.init_holds 10, rfl⟩

theorem Holds.insert (h : q.Holds ms) (hlt : q.countMsg < q.sizeQueue) (msg : α) :
    (q.insert msg).Holds (ms ++ [.message msg]) where
  ring := h.ring.put (h.count ▸ hlt) msg
  count := by
    change q.countMsg + 1 = _
    rw [h.count, List.length_append, List.length_singleton]

theorem Holds.takeHead_fst {x : Slot α} (h : q.Holds (x :: ms)) : q.takeHead.1 = x :=
  h.ring.take_fst

theorem Holds.remove {x : Slot α} (h : q.Holds (x :: ms)) : q.takeHead.2.decrement.Holds ms where
  ring := h.ring.take_snd
  count := by
    change q.countMsg - 1 = _
    rw [h.count, List.length_cons, Nat.add_sub_cancel]

theorem incremSize_unwrapped (h : q.Holds ms)
    (hroom : q.countMsg < q.sizeQueue ∨ q.sizeQueue = 0) (hu : q.head ≤ q.tail) :
    q.incremSize.Holds ms := by
  have he : q.incremSize = q.enlarge := if_neg (by change ¬ q.tail < q.head; omega)
  have hc := h.count
  have hlast : q.tail = q.head + ms.length ∧ q.head + ms.length ≤ q.sizeQueue ∧
      q.head ≤ q.sizeQueue := by
    rcases hroom with hlt | hz
    · obtain ⟨ht, htn⟩ := h.ring.tail_of_unwrapped (by omega) hu
      omega
    · have hh := h.ring.head_eq_zero hz
      have hl := h.ring.length_le
      have ht := h.ring.tail_eq
      simp only [hh, show ms.length = 0 by omega, Nat.add_zero, Nat.zero_mod] at ht ⊢
      omega
  obtain ⟨ht, hle, hle'⟩ := hlast
  rw [he]
  refine ⟨h.ring.of_slots h.ring.fault rfl ?_ ?_ ?_ ?_, h.count⟩
  · change q.head < max (q.sizeQueue + 1) 1
    omega
  · exact hle.trans' (Nat.le_add_left _ _) |>.trans (Nat.le_succ _)
  · change q.tail = (q.head + ms.length) % (q.sizeQueue + 1)
    rw [Nat.mod_eq_of_lt (by omega), ht]
  · intro i hi
    change (if (q.head + i) % (q.sizeQueue + 1) < q.buffer.size ∧
      (q.head + i) % (q.sizeQueue + 1) < q.sizeQueue + 1 then
        q.buffer.slots ((q.head + i) % (q.sizeQueue + 1)) else .unwritten) = _
    have hs := h.ring.size
    rw [Nat.mod_eq_of_lt (by omega), if_pos (by omega), Nat.mod_eq_of_lt (by omega)]

theorem incremSize_wrapped (h : q.Holds ms) (hlt : q.countMsg < q.sizeQueue)
    (hw : q.tail < q.head) : q.incremSize.Holds ms := by
  have hc := h.count
  obtain ⟨ht, hwrap⟩ := h.ring.tail_of_wrapped (by omega) hw
  have hh := h.ring.head_lt_of_pos (by omega)
  have hs := h.ring.size
  have he : q.incremSize = { q.enlarge with
      buffer := q.enlarge.buffer.shiftUp q.head q.sizeQueue
      head := q.head + 1 } := if_pos hw
  rw [he]
  refine ⟨h.ring.of_slots ?_ ?_ ?_ ?_ ?_ ?_, h.count⟩
  · exact (Buffer.shiftUp_fault _ _ _ (Nat.lt_succ_self _)).trans h.ring.fault
  · exact Buffer.shiftUp_size _ _ _
  · change q.head + 1 < max (q.sizeQueue + 1) 1
    omega
  · exact h.ring.length_le.trans (Nat.le_succ _)
  · change q.tail = (q.head + 1 + ms.length) % (q.sizeQueue + 1)
    rw [add_mod_eq_ringIndex (by omega) (by omega)]
    unfold ringIndex
    rw [if_neg (by omega)]
    omega
  · intro i hi
    change (q.enlarge.buffer.shiftUp q.head q.sizeQueue).slots
      ((q.head + 1 + i) % (q.sizeQueue + 1)) = _
    have hold (j : ℕ) (hj : j < q.sizeQueue) : q.enlarge.buffer.slots j = q.buffer.slots j :=
      if_pos (by omega)
    rw [Buffer.shiftUp_slots, add_mod_eq_ringIndex (by omega) (by omega),
      add_mod_eq_ringIndex hh (by omega)]
    unfold ringIndex
    by_cases hi' : q.head + i < q.sizeQueue
    · rw [if_pos (by omega : q.head + 1 + i < q.sizeQueue + 1), if_pos (by omega), if_pos hi',
        hold _ (by omega)]
      congr 1
      omega
    · rw [if_neg (by omega : ¬ q.head + 1 + i < q.sizeQueue + 1), if_neg (by omega), if_neg hi',
        hold _ (by omega)]
      congr 1
      omega

/-- `incremSize` keeps the messages of every ring that is not full. -/
theorem Holds.incremSize (h : q.Holds ms) (hroom : q.countMsg < q.sizeQueue ∨ q.sizeQueue = 0) :
    q.incremSize.Holds ms := by
  by_cases hw : q.tail < q.head
  · have hz : q.sizeQueue ≠ 0 := fun hz => by
      have := h.ring.head_eq_zero hz
      omega
    exact incremSize_wrapped h (by omega) hw
  · exact incremSize_unwrapped h hroom (by omega)

theorem Holds.discrSize (h : q.Holds ms)
    (hroom : ¬ (q.head = 0 ∧ 0 < q.countMsg ∧ q.countMsg + 1 = q.sizeQueue)) :
    q.discrSize.Holds ms := by
  unfold Queue.discrSize
  have hc := h.count
  split_ifs with hlt
  · exact ⟨h.ring.shrink (by omega) (by omega), h.count⟩
  · exact h

/-- A full ring has `head = tail`; `incremSize` then shifts nothing and no list is held. -/
theorem Holds.incremSize_full (h : q.Holds ms) (hfull : q.countMsg = q.sizeQueue)
    (hn : 0 < q.sizeQueue) (ms' : List (Slot α)) (hlen : ms'.length = ms.length) :
    ¬ q.incremSize.Holds ms' := by
  have hc := h.count
  have hh := h.ring.head_lt_of_pos hn
  have ht : q.tail = q.head := by
    rw [h.ring.tail_eq_ringIndex hn]
    unfold ringIndex
    split_ifs <;> omega
  have he : q.incremSize = q.enlarge := if_neg (by change ¬ q.tail < q.head; omega)
  rw [he]
  intro h'
  have ht' := h'.ring.tail_eq_ringIndex (Nat.succ_pos _)
  change q.tail = ringIndex (q.sizeQueue + 1) q.head ms'.length at ht'
  unfold ringIndex at ht'
  split_ifs at ht' <;> omega

/-- Filling an unwrapped ring by `discrSize` leaves `tail` outside the new block. -/
theorem Holds.discrSize_fill (h : q.Holds ms) (hh : q.head = 0) (hpos : 0 < q.countMsg)
    (hroom : q.countMsg + 1 = q.sizeQueue) (ms' : List (Slot α)) : ¬ q.discrSize.Holds ms' := by
  have hc := h.count
  have ht : q.tail = q.countMsg := by
    rw [h.ring.tail_eq, hh, Nat.zero_add, Nat.mod_eq_of_lt (by omega), hc]
  have he : q.discrSize.sizeQueue = q.sizeQueue - 1 ∧ q.discrSize.tail = q.countMsg := by
    unfold Queue.discrSize
    rw [if_pos (by omega)]
    refine ⟨rfl, ?_⟩
    change q.toRing.squeeze.tail = _
    unfold Ring.squeeze
    rw [if_pos (by omega), Ring.rewind_eq, hh, ht]
    rfl
  intro h'
  have hlt := h'.ring.tail_lt (by omega)
  omega

end Queue

end OsispLabs.Lab5.Condvar
