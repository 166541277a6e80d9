import OsispLabs.Lab5.Ring

/-!
# The ring as a bounded list

`Holds r ms` relates a ring to the list of unread messages it stands for. Appending, removing the
first element and, where they work, the two resizes are list operations under this relation.
-/
namespace OsispLabs.Lab5
open Lib

variable {α : Type*}

namespace Ring

/-- The unread slots of a ring with `count` messages, oldest first. -/
def pending (r : Ring α) (count : ℕ) : List (Slot α) :=
  view r.buffer.slots r.sizeQueue r.head count

/-- A ring of capacity `sizeQueue` that holds exactly the list `ms`. A ring shrunk to capacity
zero keeps both cursors at zero. -/
structure Holds (r : Ring α) (ms : List (Slot α)) : Prop where
  fault : r.buffer.fault = false
  size : r.buffer.size = r.sizeQueue
  head_lt : r.head < max r.sizeQueue 1
  length_le : ms.length ≤ r.sizeQueue
  tail_eq : r.tail = (r.head + ms.length) % r.sizeQueue
  cells : r.pending ms.length = ms

theorem init_holds (n : ℕ) : (init n : Ring α).Holds [] where
  fault := rfl
  size := rfl
  head_lt := by change 0 < max n 1; omega
  length_le := Nat.zero_le _
  tail_eq := by simp [init]
  cells := rfl

namespace Holds

variable {r : Ring α} {ms : List (Slot α)}

theorem head_lt_of_pos (h : r.Holds ms) (hn : 0 < r.sizeQueue) : r.head < r.sizeQueue := by
  have := h.head_lt
  omega

theorem tail_eq_ringIndex (h : r.Holds ms) (hn : 0 < r.sizeQueue) :
    r.tail = ringIndex r.sizeQueue r.head ms.length := by
  rw [h.tail_eq, add_mod_eq_ringIndex (h.head_lt_of_pos hn) h.length_le]

theorem tail_lt (h : r.Holds ms) (hn : 0 < r.sizeQueue) : r.tail < r.sizeQueue := by
  rw [h.tail_eq]
  exact Nat.mod_lt _ hn

theorem head_eq_zero (h : r.Holds ms) (hn : r.sizeQueue = 0) : r.head = 0 := by
  have := h.head_lt
  omega

/-- Slot `i` of the list is stored `i` places after `head`. -/
theorem slot_eq (h : r.Holds ms) {i : ℕ} (hi : i < ms.length) :
    r.buffer.slots ((r.head + i) % r.sizeQueue) = ms[i] := by
  have hv := view_getElem? r.buffer.slots r.sizeQueue r.head ms.length i hi
  have hc : view r.buffer.slots r.sizeQueue r.head ms.length = ms := h.cells
  rw [hc, List.getElem?_eq_getElem hi] at hv
  exact (Option.some.inj hv).symm

/-- Every slot of the list keeps its content when the ring is moved as described by `hslot`. -/
theorem of_slots {r' : Ring α} (h : r.Holds ms) (hfault : r'.buffer.fault = false)
    (hsize : r'.buffer.size = r'.sizeQueue) (hhead : r'.head < max r'.sizeQueue 1)
    (hlen : ms.length ≤ r'.sizeQueue) (htail : r'.tail = (r'.head + ms.length) % r'.sizeQueue)
    (hslot : ∀ i < ms.length, r'.buffer.slots ((r'.head + i) % r'.sizeQueue) =
      r.buffer.slots ((r.head + i) % r.sizeQueue)) : r'.Holds ms where
  fault := hfault
  size := hsize
  head_lt := hhead
  length_le := hlen
  tail_eq := htail
  cells := (view_congr hslot).trans h.cells

theorem put (h : r.Holds ms) (hlt : ms.length < r.sizeQueue) (msg : α) :
    (r.put msg).Holds (ms ++ [.message msg]) where
  fault := by
    have ht := h.tail_lt (by omega)
    rw [← h.size] at ht
    exact (Buffer.store_fault ht _).trans h.fault
  size := h.size
  head_lt := h.head_lt
  length_le := by
    rw [List.length_append, List.length_singleton]
    exact hlt
  tail_eq := by
    have ht := h.tail_lt (by omega)
    change (if r.tail + 1 = r.sizeQueue then 0 else r.tail + 1) = _
    rw [advance_eq_mod ht, h.tail_eq, Nat.mod_add_mod, List.length_append, List.length_singleton,
      Nat.add_assoc]
    rfl
  cells := by
    have hh := h.head_lt_of_pos (by omega)
    have hp := view_push (f := r.buffer.slots) (.message msg) hh hlt
    have hc : view r.buffer.slots r.sizeQueue r.head ms.length = ms := h.cells
    rw [hc, ← h.tail_eq] at hp
    rw [List.length_append, List.length_singleton]
    exact hp

/-- A slot that is written by `put` holds no unread message. -/
theorem tail_free (h : r.Holds ms) (hlt : ms.length < r.sizeQueue) {i : ℕ} (hi : i < ms.length) :
    (r.head + i) % r.sizeQueue ≠ r.tail := by
  have hh := h.head_lt_of_pos (by omega)
  rw [h.tail_eq_ringIndex (by omega), add_mod_eq_ringIndex hh (by omega)]
  intro he
  have := ringIndex_injective (by omega) hlt he
  omega

theorem take_fst {x : Slot α} (h : r.Holds (x :: ms)) : r.take.1 = x := by
  have hl : ms.length + 1 ≤ r.sizeQueue := h.length_le
  have hs := h.slot_eq (i := 0) (by simp)
  rw [Nat.add_zero, Nat.mod_eq_of_lt (h.head_lt_of_pos (by omega))] at hs
  exact hs

theorem take_snd {x : Slot α} (h : r.Holds (x :: ms)) : r.take.2.Holds ms := by
  have hl : ms.length + 1 ≤ r.sizeQueue := h.length_le
  have hh := h.head_lt_of_pos (by omega)
  have hhead : r.take.2.head = (r.head + 1) % r.sizeQueue := advance_eq_mod hh
  have hin : r.head < r.buffer.size := by rw [h.size]; exact hh
  refine ⟨?_, h.size, ?_, by change ms.length ≤ r.sizeQueue; omega, ?_, ?_⟩
  · exact (Buffer.store_fault (b := (r.buffer.load r.head).2) hin _).trans
      ((Buffer.load_fault hin).trans h.fault)
  · rw [hhead]
    exact lt_of_lt_of_le (Nat.mod_lt _ (by omega)) (le_max_left _ _)
  · change r.tail = (r.take.2.head + ms.length) % r.sizeQueue
    rw [hhead, Nat.mod_add_mod, h.tail_eq, List.length_cons, Nat.add_assoc, Nat.add_comm 1]
  · have hp := view_pop (f := r.buffer.slots) .zeroed hh (by omega : ms.length < r.sizeQueue)
    have hc : view r.buffer.slots r.sizeQueue r.head (ms.length + 1) = x :: ms := h.cells
    rw [hc] at hp
    change view (Function.update r.buffer.slots r.head .zeroed) r.sizeQueue r.take.2.head
      ms.length = ms
    rw [hhead]
    exact (List.cons.inj hp).2

/-- In a ring that is not full, `head > tail` means that the messages wrap. -/
theorem wrapped_iff (h : r.Holds ms) (hlt : ms.length < r.sizeQueue) :
    r.tail < r.head ↔ r.sizeQueue ≤ r.head + ms.length := by
  have hh := h.head_lt_of_pos (by omega)
  rw [h.tail_eq_ringIndex (by omega)]
  unfold ringIndex
  split_ifs <;> omega

theorem tail_of_unwrapped (h : r.Holds ms) (hlt : ms.length < r.sizeQueue)
    (hu : r.head ≤ r.tail) : r.tail = r.head + ms.length ∧ r.head + ms.length < r.sizeQueue := by
  have hw := (h.wrapped_iff hlt).not.mp (by omega)
  rw [h.tail_eq_ringIndex (by omega)]
  unfold ringIndex
  rw [if_pos (by omega)]
  omega

theorem tail_of_wrapped (h : r.Holds ms) (hlt : ms.length < r.sizeQueue)
    (hw : r.tail < r.head) :
    r.tail = r.head + ms.length - r.sizeQueue ∧ r.sizeQueue ≤ r.head + ms.length := by
  have hw := (h.wrapped_iff hlt).mp hw
  rw [h.tail_eq_ringIndex (by omega)]
  unfold ringIndex
  rw [if_neg (by omega)]
  omega

end Holds

/-- Both cursors lie in the ring, `count` slots apart; `buffer` has a slot for each index and no
other slot has been touched. -/
structure WellFormed (r : Ring α) (count : ℕ) : Prop where
  fault : r.buffer.fault = false
  size : r.buffer.size = r.sizeQueue
  capacity : 1 ≤ r.sizeQueue
  head_lt : r.head < r.sizeQueue
  tail_lt : r.tail < r.sizeQueue
  count_le : count ≤ r.sizeQueue
  tail_eq : (r.head + count) % r.sizeQueue = r.tail

theorem pending_length (r : Ring α) (count : ℕ) : (r.pending count).length = count :=
  view_length _ _ _ _

theorem WellFormed.holds {r : Ring α} {count : ℕ} (h : r.WellFormed count) :
    r.Holds (r.pending count) where
  fault := h.fault
  size := h.size
  head_lt := h.head_lt.trans_le (Nat.le_max_left _ _)
  length_le := by
    rw [pending_length]
    exact h.count_le
  tail_eq := by
    rw [pending_length]
    exact h.tail_eq.symm
  cells := by rw [pending_length]

theorem Holds.wellFormed {r : Ring α} {ms : List (Slot α)} (h : r.Holds ms)
    (hn : 1 ≤ r.sizeQueue) : r.WellFormed ms.length where
  fault := h.fault
  size := h.size
  capacity := hn
  head_lt := h.head_lt_of_pos hn
  tail_lt := h.tail_lt hn
  count_le := h.length_le
  tail_eq := h.tail_eq.symm

section Shrink

variable {r : Ring α} {ms : List (Slot α)}

/-- Compaction leaves `tail` one past the last message; that is inside the new block unless the
messages fill it. -/
theorem shrink_unwrapped (h : r.Holds ms) (hlt : ms.length < r.sizeQueue)
    (hu : r.head < r.tail) (hroom : ms.length + 1 < r.sizeQueue) : r.shrink.Holds ms := by
  obtain ⟨ht, htn⟩ := h.tail_of_unwrapped hlt (by omega)
  have hs := Buffer.compact_spec r.buffer r.head r.tail
    (by rw [h.size, ht]; omega)
  have he : r.shrink = { r with
      buffer := (r.buffer.compact r.head r.tail).realloc (r.sizeQueue - 1)
      head := 0
      tail := r.tail - r.head
      sizeQueue := r.sizeQueue - 1 } := by
    unfold shrink squeeze
    rw [if_pos hu, rewind_eq]
  rw [he]
  refine h.of_slots ?_ rfl (by change 0 < max _ 1; omega)
    (by change ms.length ≤ r.sizeQueue - 1; omega) ?_ ?_
  · exact hs.2.1.trans h.fault
  · change r.tail - r.head = (0 + ms.length) % (r.sizeQueue - 1)
    rw [Nat.mod_eq_of_lt (by omega)]
    omega
  · intro i hi
    change (if (0 + i) % (r.sizeQueue - 1) < (r.buffer.compact r.head r.tail).size ∧
      (0 + i) % (r.sizeQueue - 1) < r.sizeQueue - 1 then
        (r.buffer.compact r.head r.tail).slots ((0 + i) % (r.sizeQueue - 1))
      else .unwritten) = _
    rw [Nat.zero_add, Nat.mod_eq_of_lt (by omega : i < r.sizeQueue - 1), hs.1, h.size,
      if_pos (by omega), hs.2.2 i (by omega), Nat.mod_eq_of_lt (by omega)]

theorem shrink_empty (h : r.Holds ms) (hlt : ms.length < r.sizeQueue) (he : r.head = r.tail) :
    r.shrink.Holds ms := by
  obtain ⟨ht, _⟩ := h.tail_of_unwrapped hlt (by omega)
  have hnil : ms.length = 0 := by omega
  have hsh : r.shrink = { r with
      buffer := r.buffer.realloc (r.sizeQueue - 1)
      head := 0
      tail := 0
      sizeQueue := r.sizeQueue - 1 } := by
    unfold shrink squeeze
    rw [if_neg (by omega), if_pos he]
  rw [hsh]
  refine h.of_slots h.fault rfl (by change 0 < max _ 1; omega) ?_ ?_ (fun i hi => by omega)
  · rw [hnil]
    exact Nat.zero_le _
  · rw [hnil]
    exact (Nat.zero_mod _).symm

/-- The upper segment moves down by one slot, into the free slot below `head`. -/
theorem shrink_wrapped (h : r.Holds ms) (hlt : ms.length < r.sizeQueue) (hw : r.tail < r.head) :
    r.shrink.Holds ms := by
  obtain ⟨ht, hwrap⟩ := h.tail_of_wrapped hlt hw
  have hh := h.head_lt_of_pos (by omega)
  have hs := Buffer.shiftDown_spec r.buffer r.head r.sizeQueue (by omega)
    h.size.ge
  have he : r.shrink = { r with
      buffer := (r.buffer.shiftDown r.head r.sizeQueue).realloc (r.sizeQueue - 1)
      head := r.head - 1
      sizeQueue := r.sizeQueue - 1 } := by
    unfold shrink squeeze
    rw [if_neg (by omega), if_neg (by omega)]
  rw [he]
  refine h.of_slots ?_ rfl ?_ (by change ms.length ≤ r.sizeQueue - 1; omega) ?_ ?_
  · exact hs.2.1.trans h.fault
  · change r.head - 1 < max (r.sizeQueue - 1) 1
    omega
  · change r.tail = (r.head - 1 + ms.length) % (r.sizeQueue - 1)
    rw [add_mod_eq_ringIndex (by omega) (by omega)]
    unfold ringIndex
    rw [if_neg (by omega)]
    omega
  · intro i hi
    change (if (r.head - 1 + i) % (r.sizeQueue - 1) < (r.buffer.shiftDown r.head r.sizeQueue).size ∧
      (r.head - 1 + i) % (r.sizeQueue - 1) < r.sizeQueue - 1 then
        (r.buffer.shiftDown r.head r.sizeQueue).slots ((r.head - 1 + i) % (r.sizeQueue - 1))
      else .unwritten) = _
    rw [if_pos ⟨by rw [hs.1, h.size]; exact lt_of_lt_of_le (Nat.mod_lt _ (by omega)) (by omega),
      Nat.mod_lt _ (by omega)⟩, add_mod_eq_ringIndex (by omega) (by omega),
      add_mod_eq_ringIndex hh (by omega)]
    unfold ringIndex
    by_cases hi' : r.head + i < r.sizeQueue
    · rw [if_pos (by omega), if_pos hi', ← hs.2.2.1 (r.head + i) (by omega) hi']
      congr 1
      omega
    · rw [if_neg (by omega), if_neg hi', hs.2.2.2 _ (by omega)]
      congr 1
      omega

/-- `discrSize` keeps the messages of a ring that is not full, except when an unwrapped ring
would be filled: then `tail` is left at the new capacity. -/
theorem Holds.shrink (h : r.Holds ms) (hlt : ms.length < r.sizeQueue)
    (hroom : ¬ (r.head = 0 ∧ 0 < ms.length ∧ ms.length + 1 = r.sizeQueue)) :
    r.shrink.Holds ms := by
  rcases lt_trichotomy r.head r.tail with hu | he | hw
  · obtain ⟨ht, htn⟩ := h.tail_of_unwrapped hlt (by omega)
    exact shrink_unwrapped h hlt hu (by omega)
  · exact shrink_empty h hlt he
  · exact shrink_wrapped h hlt hw

end Shrink

end Ring

end OsispLabs.Lab5
