import OsispLabs.Lab5.Condvar.Queue

/-!
# One resize of a well-formed ring

A single call of `incremSize` or `discrSize`, for every capacity, rotation and fill level.
`discrSize` keeps the messages of every well-formed ring, `incremSize` those of every ring that is
not full: a full ring has `head = tail`, so the test `head > tail` fails and nothing is shifted.
-/
namespace OsispLabs.Lab5.Condvar
open Lib

variable {α : Type*} {q : Queue α} {ms : List (Slot α)}

namespace Queue

/-- A well-formed ring whose messages `countMsg` counts. -/
def WellFormed (q : Queue α) : Prop := q.toRing.WellFormed q.countMsg

theorem messages_length (q : Queue α) : q.messages.length = q.countMsg :=
  Ring.pending_length _ _

theorem WellFormed.holds (h : q.WellFormed) : q.Holds q.messages where
  ring := Ring.WellFormed.holds h
  count := q.messages_length.symm

theorem Holds.wellFormed (h : q.Holds ms) (hn : 1 ≤ q.sizeQueue) : q.WellFormed := by
  rw [WellFormed, h.count]
  exact h.ring.wellFormed hn

/-- `q'` is `q` with one more free slot, and the next insertion overwrites no message. -/
structure Grown (q q' : Queue α) : Prop where
  wellFormed : q'.WellFormed
  capacity : q'.sizeQueue = q.sizeQueue + 1
  count : q'.countMsg = q.countMsg
  messages : q'.messages = q.messages
  room : q'.countMsg < q'.sizeQueue
  untouched : ∀ i < q'.countMsg, (q'.head + i) % q'.sizeQueue ≠ q'.tail

/-- `q'` is `q` itself when full, else `q` with one free slot less; no loop has left the block. -/
structure Shrunk (q q' : Queue α) : Prop where
  full : q.countMsg = q.sizeQueue → q' = q
  capacity : q.countMsg < q.sizeQueue → q'.sizeQueue = q.sizeQueue - 1
  block : q'.buffer.size = q'.sizeQueue
  count : q'.countMsg = q.countMsg
  fault : q'.buffer.fault = false
  messages : q'.messages = q.messages

theorem incremSize_sizeQueue (q : Queue α) : q.incremSize.sizeQueue = q.sizeQueue + 1 := by
  simp only [incremSize, openGap]
  split <;> rfl

theorem incremSize_countMsg (q : Queue α) : q.incremSize.countMsg = q.countMsg := by
  simp only [incremSize, openGap]
  split <;> rfl

theorem discrSize_countMsg (q : Queue α) : q.discrSize.countMsg = q.countMsg := by
  rw [discrSize]
  split <;> rfl

/-- `incremSize` only adds a free slot to a well-formed ring exactly when the ring is not full. -/
theorem incremSize_grown_iff (h : q.WellFormed) :
    q.Grown q.incremSize ↔ q.countMsg < q.sizeQueue := by
  constructor
  · intro hgrown
    by_contra hnot
    have hle := h.count_le
    refine h.holds.incremSize_full (by omega) h.capacity _ ?_ hgrown.wellFormed.holds
    rw [hgrown.messages]
  · intro hlt
    have hholds := h.holds.incremSize (.inl hlt)
    have hsize := q.incremSize_sizeQueue
    have hcount := q.incremSize_countMsg
    have hwell := hholds.wellFormed (by omega)
    have hroom : q.incremSize.countMsg < q.incremSize.sizeQueue := by omega
    refine ⟨hwell, hsize, hcount, hholds.messages_eq, hroom, fun i hi => ?_⟩
    have hlen := q.incremSize.messages_length
    exact hwell.holds.ring.tail_free (by omega) (by omega)

theorem incremSize_grown_wrapped :
    (⟨⟨⟨fun i => .message i, 3, false⟩, 2, 1, 2, 0, 3⟩, 2⟩ : Queue ℕ).Grown
      (⟨⟨⟨fun i => .message i, 3, false⟩, 2, 1, 2, 0, 3⟩, 2⟩ : Queue ℕ).incremSize :=
  (incremSize_grown_iff ⟨rfl, rfl, by decide, by decide, by decide, by decide, rfl⟩).mpr (by decide)

/-- A full ring of capacity one is left with its cursors on the same slot. -/
theorem incremSize_full_not_grown :
    ¬ ∀ q : Queue ℕ, q.WellFormed → q.Grown q.incremSize := by
  intro hall
  have hgrown := hall ⟨⟨⟨fun i => .message i, 1, false⟩, 0, 0, 1, 0, 1⟩, 1⟩
    ⟨rfl, rfl, by decide, by decide, by decide, by decide, rfl⟩
  exact absurd hgrown.wellFormed.tail_eq (by decide)

/-- Where `tail` is left at the new capacity, the messages themselves stay from slot zero. -/
theorem discrSize_messages_filled (h : q.WellFormed) (hhead : q.head = 0) (hpos : 0 < q.countMsg)
    (hfill : q.countMsg + 1 = q.sizeQueue) :
    q.discrSize.buffer.fault = false ∧ q.discrSize.messages = q.messages := by
  have htail : q.tail = q.countMsg := by
    rw [← h.tail_eq, hhead, Nat.zero_add, Nat.mod_eq_of_lt (by omega)]
  have hsize := h.size
  obtain ⟨hkeep, hfault, hcell⟩ := Buffer.compact_spec q.buffer q.head q.tail (by omega)
  have he : q.discrSize = { q with
      buffer := (q.buffer.compact q.head q.tail).realloc (q.sizeQueue - 1)
      head := 0
      tail := q.tail - q.head
      sizeQueue := q.sizeQueue - 1 } := by
    unfold Queue.discrSize Ring.shrink Ring.squeeze
    rw [if_pos (by omega), if_pos (by omega), Ring.rewind_eq]
  rw [he]
  refine ⟨hfault.trans h.fault, view_congr fun i hi => ?_⟩
  change (if (0 + i) % (q.sizeQueue - 1) < (q.buffer.compact q.head q.tail).size ∧
    (0 + i) % (q.sizeQueue - 1) < q.sizeQueue - 1 then
      (q.buffer.compact q.head q.tail).slots ((0 + i) % (q.sizeQueue - 1))
    else .unwritten) = _
  change i < q.countMsg at hi
  rw [Nat.zero_add, Nat.mod_eq_of_lt (by omega : i < q.sizeQueue - 1), hkeep,
    if_pos (by omega), hcell i (by omega), Nat.mod_eq_of_lt (by omega)]

/-- `discrSize` keeps the messages of every well-formed ring. -/
theorem discrSize_shrunk (h : q.WellFormed) : q.Shrunk q.discrSize := by
  have hle := h.count_le
  have hmessages : q.discrSize.buffer.fault = false ∧ q.discrSize.messages = q.messages := by
    by_cases hfill : q.head = 0 ∧ 0 < q.countMsg ∧ q.countMsg + 1 = q.sizeQueue
    · exact discrSize_messages_filled h hfill.1 hfill.2.1 hfill.2.2
    · have hholds := h.holds.discrSize hfill
      exact ⟨hholds.ring.fault, hholds.messages_eq⟩
  refine ⟨fun hfull => ?_, fun hlt => ?_, ?_, q.discrSize_countMsg, hmessages.1, hmessages.2⟩
  · exact if_neg (by omega)
  · rw [discrSize, if_pos hlt]
    rfl
  · rw [discrSize]
    split
    · rfl
    · exact h.size

theorem discrSize_shrunk_wrapped :
    (⟨⟨⟨fun i => .message i, 4, false⟩, 3, 1, 2, 0, 4⟩, 2⟩ : Queue ℕ).Shrunk
      (⟨⟨⟨fun i => .message i, 4, false⟩, 3, 1, 2, 0, 4⟩, 2⟩ : Queue ℕ).discrSize :=
  discrSize_shrunk ⟨rfl, rfl, by decide, by decide, by decide, by decide, rfl⟩

end Queue

end OsispLabs.Lab5.Condvar
