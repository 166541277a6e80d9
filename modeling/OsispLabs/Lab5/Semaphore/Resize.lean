import OsispLabs.Lab5.Semaphore.Queue

/-!
# One growth of the ring of `lab5_1.c`

`incremSize` called while no other thread is in flight. The loop moves the slots from `tail`
instead of those from `head`, and `tail` is adjusted instead of `head`; whatever wraps is lost.
-/
namespace OsispLabs.Lab5.Semaphore
open Lib

variable {P C α : Type*} [DecidableEq P] [DecidableEq C]

namespace State

/-- `r'` holds the `count` messages of `r` in the same order, with one more slot. -/
structure GainsSlot (r r' : Ring α) (count : ℕ) : Prop where
  capacity : r'.sizeQueue = r.sizeQueue + 1
  messages : r'.pending count = r.pending count
  tail_eq : (r'.head + count) % r'.sizeQueue = r'.tail

/-- No thread is in flight. -/
structure Quiet (s : State P C α) : Prop where
  producer : ∀ i, s.producer i = .outside
  consumer : ∀ j, s.consumer j = .outside
  main : s.main = .menu
  mutex : s.mutex = false

/-- The operations of one call of `incremSize`. -/
def growCall : List (Action P C α) := [.incremSize, .main, .main, .main, .main]

/-- A call that nothing disturbs shifts the reallocated ring and posts one slot. -/
theorem Quiet.growCall_eq {s : State P C α} (hs : s.Quiet) :
    exec next s growCall = some { s with ring := openGap s.ring.grow, empty := s.empty + 1 } := by
  have hmain := hs.main
  have hmutex := hs.mutex
  cases s
  subst hmain hmutex
  rfl

variable {r : Ring α} {count : ℕ}

/-- The messages of an unwrapped ring end at `tail`, and the new slot comes after them. -/
theorem gainsSlot_of_unwrapped (h : r.WellFormed count) (hu : r.head + count < r.sizeQueue) :
    GainsSlot r (openGap r.grow) count := by
  have htail : r.tail = r.head + count := by rw [← h.tail_eq, Nat.mod_eq_of_lt hu]
  have he : openGap r.grow = r.grow := if_neg (by change ¬ r.tail < r.head; omega)
  have hsize := h.size
  rw [he]
  refine ⟨rfl, view_congr fun i hi => ?_, ?_⟩
  · change (if (r.head + i) % (r.sizeQueue + 1) < r.buffer.size ∧
      (r.head + i) % (r.sizeQueue + 1) < r.sizeQueue + 1 then
        r.buffer.slots ((r.head + i) % (r.sizeQueue + 1)) else .unwritten) = _
    rw [Nat.mod_eq_of_lt (by omega), if_pos (by omega), Nat.mod_eq_of_lt (by omega)]
  · change (r.head + count) % (r.sizeQueue + 1) = r.tail
    rw [Nat.mod_eq_of_lt (by omega), htail]

/-- Where the messages reach the last slot, `tail` ends up on a slot that does not follow them. -/
theorem not_gainsSlot_of_wrapped (h : r.WellFormed count) (hw : r.sizeQueue ≤ r.head + count) :
    ¬ GainsSlot r (openGap r.grow) count := by
  intro hgain
  have hhead := h.head_lt
  have hle := h.count_le
  have htail : r.tail = r.head + count - r.sizeQueue := by
    rw [← h.tail_eq, add_mod_eq_ringIndex hhead hle, ringIndex, if_neg (by omega)]
  have hnew := hgain.tail_eq
  rw [hgain.capacity] at hnew
  unfold openGap at hnew
  split at hnew
  case isTrue hlt =>
    change r.tail < r.head at hlt
    change (r.head + count) % (r.sizeQueue + 1) = r.tail + 1 at hnew
    rw [add_mod_eq_ringIndex (by omega) (by omega), ringIndex] at hnew
    split_ifs at hnew <;> omega
  case isFalse hlt =>
    change ¬ r.tail < r.head at hlt
    change (r.head + count) % (r.sizeQueue + 1) = r.tail at hnew
    rw [add_mod_eq_ringIndex (by omega) (by omega), ringIndex] at hnew
    split_ifs at hnew <;> omega

/-- A call of `incremSize` adds a free slot and nothing else exactly when the messages end before
the last slot. -/
theorem growCall_gainsSlot_iff (s : State P C α) (count : ℕ) (hs : s.Quiet)
    (h : s.ring.WellFormed count) :
    (∃ t, exec next s growCall = some t ∧ t.Quiet ∧ GainsSlot s.ring t.ring count) ↔
      s.ring.head + count < s.ring.sizeQueue := by
  rw [hs.growCall_eq]
  constructor
  · rintro ⟨t, ht, -, hgain⟩
    obtain rfl := Option.some.inj ht
    by_contra hnot
    exact not_gainsSlot_of_wrapped h (by omega) hgain
  · intro hu
    exact ⟨_, rfl, ⟨hs.producer, hs.consumer, hs.main, hs.mutex⟩, gainsSlot_of_unwrapped h hu⟩

/-- Two messages in the middle of a ring of four slots. -/
theorem growCall_gainsSlot_middle :
    ∃ t, exec next (⟨⟨⟨fun i => .message i, 4, false⟩, 1, 3, 2, 0, 4⟩, 2, 2, false,
      fun _ => .outside, fun _ => .outside, .menu, [], []⟩ : State Unit Unit ℕ) growCall = some t ∧
        t.Quiet ∧ GainsSlot ⟨⟨fun i => .message i, 4, false⟩, 1, 3, 2, 0, 4⟩ t.ring 2 :=
  (growCall_gainsSlot_iff (⟨⟨⟨fun i => .message i, 4, false⟩, 1, 3, 2, 0, 4⟩, 2, 2, false,
    fun _ => .outside, fun _ => .outside, .menu, [], []⟩ : State Unit Unit ℕ) 2
    ⟨fun _ => rfl, fun _ => rfl, rfl, rfl⟩
    ⟨rfl, rfl, by decide, by decide, by decide, by decide, rfl⟩).mpr (by decide)

/-- Two messages that wrap in a ring of three slots: the older one is left behind. -/
theorem growCall_wrapped_not_gainsSlot :
    ¬ ∀ (s : State Unit Unit ℕ) (count : ℕ), s.Quiet → s.ring.WellFormed count →
      ∃ t, exec next s growCall = some t ∧ t.Quiet ∧ GainsSlot s.ring t.ring count := by
  intro hall
  obtain ⟨t, ht, -, hgain⟩ := hall ⟨⟨⟨fun i => .message i, 3, false⟩, 2, 1, 2, 0, 3⟩, 1, 2, false,
    fun _ => .outside, fun _ => .outside, .menu, [], []⟩ 2
    ⟨fun _ => rfl, fun _ => rfl, rfl, rfl⟩
    ⟨rfl, rfl, by decide, by decide, by decide, by decide, rfl⟩
  obtain rfl := Option.some.inj ht
  exact absurd hgain.messages (by decide)

end State

end OsispLabs.Lab5.Semaphore
