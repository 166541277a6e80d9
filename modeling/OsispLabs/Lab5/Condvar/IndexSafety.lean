import OsispLabs.Lab5.Condvar.Fifo

/-!
# Slot indices over whole runs of the monitor queue

`head` and `tail` are wrapped by an equality test only. A shrink that leaves `tail` at the new
capacity disables that test for good, and the next insertion writes behind the block. All other
steps keep both cursors inside it, also in the rings that no longer hold their messages.
-/
namespace OsispLabs.Lab5.Condvar
open Lib

variable {α : Type*}

namespace Queue

/-- No slot outside the block has been read or written, and the block has `sizeQueue` slots. -/
structure InBlock (q : Queue α) : Prop where
  fault : q.buffer.fault = false
  size : q.buffer.size = q.sizeQueue

/-- The invariant: both cursors are slots, or zero when there is no slot. -/
structure Bounded (q : Queue α) : Prop extends InBlock q where
  count_le : q.countMsg ≤ q.sizeQueue
  head_lt : q.head < max q.sizeQueue 1
  tail_lt : q.tail < max q.sizeQueue 1

/-- The ring that `discrSize` shrinks from slot zero with `tail` in its last slot. -/
def Overruns (q : Queue α) : Prop :=
  q.countMsg < q.sizeQueue ∧ q.head = 0 ∧ 0 < q.tail ∧ q.tail + 1 = q.sizeQueue

instance (q : Queue α) : Decidable q.Overruns := inferInstanceAs (Decidable (_ ∧ _))

theorem init_queue_bounded : (init_queue : Queue α).Bounded :=
  ⟨⟨rfl, rfl⟩, Nat.zero_le _, by change 0 < max 10 1; omega, by change 0 < max 10 1; omega⟩

variable {q : Queue α}

theorem Bounded.insert (h : q.Bounded) (hlt : q.countMsg < q.sizeQueue) (msg : α) :
    (q.insert msg).Bounded := by
  have htail := h.tail_lt
  have hsize := h.size
  refine ⟨⟨?_, hsize⟩, hlt, h.head_lt, ?_⟩
  · exact (Buffer.store_fault (by omega) _).trans h.fault
  · change (if q.tail + 1 = q.sizeQueue then 0 else q.tail + 1) < max q.sizeQueue 1
    split <;> omega

theorem Bounded.remove (h : q.Bounded) (hpos : q.countMsg ≠ 0) :
    q.takeHead.2.decrement.Bounded := by
  have hhead := h.head_lt
  have hsize := h.size
  have hle := h.count_le
  have hin : q.head < q.buffer.size := by omega
  refine ⟨⟨?_, hsize⟩, ?_, ?_, h.tail_lt⟩
  · have hload := Buffer.load_fault hin
    exact (Buffer.store_fault (b := (q.buffer.load q.head).2) hin _).trans (hload.trans h.fault)
  · change q.countMsg - 1 ≤ q.sizeQueue
    omega
  · change (if q.head + 1 = q.sizeQueue then 0 else q.head + 1) < max q.sizeQueue 1
    split <;> omega

theorem Bounded.incremSize (h : q.Bounded) : q.incremSize.Bounded := by
  have hhead := h.head_lt
  have htail := h.tail_lt
  have hle := h.count_le
  unfold Queue.incremSize openGap
  split
  case isTrue hwrapped =>
    refine ⟨⟨?_, ?_⟩, ?_, ?_, ?_⟩
    · exact (Buffer.shiftUp_fault _ _ _ (Nat.lt_succ_self _)).trans h.fault
    · exact Buffer.shiftUp_size _ _ _
    · change q.countMsg ≤ q.sizeQueue + 1
      omega
    · change q.tail < q.head at hwrapped
      change q.head + 1 < max (q.sizeQueue + 1) 1
      omega
    · change q.tail < max (q.sizeQueue + 1) 1
      omega
  case isFalse =>
    refine ⟨⟨h.fault, rfl⟩, ?_, ?_, ?_⟩
    · change q.countMsg ≤ q.sizeQueue + 1
      omega
    · change q.head < max (q.sizeQueue + 1) 1
      omega
    · change q.tail < max (q.sizeQueue + 1) 1
      omega

/-- What the branches of `discrSize` do to a bounded ring: the loops stay in the block, and the
cursors end below the new capacity unless `tail` was in the last slot with `head` at zero. -/
theorem Bounded.squeeze (h : q.Bounded) (hlt : q.countMsg < q.sizeQueue) :
    q.squeeze.buffer.fault = false ∧ q.squeeze.head < max (q.sizeQueue - 1) 1 ∧
      (¬ q.Overruns → q.squeeze.tail < max (q.sizeQueue - 1) 1) := by
  have hhead := h.head_lt
  have htail := h.tail_lt
  have hsize := h.size
  unfold Ring.squeeze
  rcases lt_trichotomy q.head q.tail with hu | he | hw
  · have hcompact := Buffer.compact_spec q.buffer q.head q.tail (by omega)
    rw [if_pos hu, Ring.rewind_eq]
    refine ⟨hcompact.2.1.trans h.fault, by change 0 < _; omega, fun hnot => ?_⟩
    change q.tail - q.head < _
    have : ¬ (q.head = 0 ∧ q.tail + 1 = q.sizeQueue) :=
      fun hfill => hnot ⟨hlt, hfill.1, by omega, hfill.2⟩
    omega
  · rw [if_neg (by omega), if_pos he]
    refine ⟨h.fault, ?_, fun _ => ?_⟩
    · change 0 < _
      omega
    · change 0 < _
      omega
  · have hshift := Buffer.shiftDown_spec q.buffer q.head q.sizeQueue (by omega) hsize.ge
    rw [if_neg (by omega), if_neg (by omega)]
    refine ⟨hshift.2.1.trans h.fault, ?_, fun _ => ?_⟩
    · change q.head - 1 < _
      omega
    · change q.tail < _
      omega

theorem Bounded.discrSize (h : q.Bounded) (hnot : ¬ q.Overruns) : q.discrSize.Bounded := by
  rw [Queue.discrSize]
  split
  case isTrue hlt =>
    obtain ⟨hfault, hhead, htail⟩ := h.squeeze hlt
    refine ⟨⟨hfault, rfl⟩, ?_, hhead, htail hnot⟩
    change q.countMsg ≤ q.sizeQueue - 1
    omega
  case isFalse => exact h

/-- The shrink that leaves `tail` one past the block it has reallocated. -/
theorem Bounded.discrSize_overrun (h : q.Bounded) (ho : q.Overruns) :
    q.discrSize.InBlock ∧ q.discrSize.tail = q.discrSize.sizeQueue ∧
      0 < q.discrSize.sizeQueue ∧ q.discrSize.countMsg ≤ q.discrSize.sizeQueue := by
  obtain ⟨hlt, hhead, hpos, hfill⟩ := ho
  obtain ⟨hfault, -, -⟩ := h.squeeze hlt
  have htail : q.squeeze.tail = q.tail := by
    unfold Ring.squeeze
    rw [if_pos (by omega), Ring.rewind_eq, hhead]
    rfl
  rw [Queue.discrSize, if_pos hlt]
  refine ⟨⟨hfault, rfl⟩, ?_, ?_, ?_⟩
  · change q.squeeze.tail = q.sizeQueue - 1
    omega
  · change 0 < q.sizeQueue - 1
    omega
  · change q.countMsg ≤ q.sizeQueue - 1
    omega

theorem insert_fault (hsize : q.buffer.size ≤ q.tail) (msg : α) :
    (q.insert msg).buffer.fault = true := by
  change (q.buffer.fault || !decide (q.tail < q.buffer.size)) = true
  simp [hsize]

end Queue

namespace History

/-- The step is not a `discrSize` that would leave `tail` past the block. -/
def Wraps (h : History α) : Section α → Prop
  | .discrSize => ¬ h.queue.Overruns
  | .workProducer _ | .workConsumer | .incremSize => True

instance (h : History α) : (s : Section α) → Decidable (h.Wraps s)
  | .discrSize => inferInstanceAs (Decidable (¬ _))
  | .workProducer _ => isTrue trivial
  | .workConsumer => isTrue trivial
  | .incremSize => isTrue trivial

theorem next_bounded (h : History α) (s : Section α) (h' : History α) (hb : h.queue.Bounded)
    (hw : h.Wraps s) (hs : h.next s = some h') : h'.queue.Bounded := by
  cases s with
  | workProducer msg =>
    simp only [next] at hs
    split at hs
    · obtain rfl := Option.some.inj hs
      exact hb.insert ‹_› msg
    · cases hs
  | workConsumer =>
    simp only [next] at hs
    split at hs
    · cases hs
    · obtain rfl := Option.some.inj hs
      exact hb.remove ‹_›
  | incremSize =>
    obtain rfl := Option.some.inj hs
    exact hb.incremSize
  | discrSize =>
    obtain rfl := Option.some.inj hs
    exact hb.discrSize hw

/-- After a shrink against `Wraps`, an insertion that the program lets through writes outside the
block. -/
theorem overrun_reaches_fault (h : History α) (hb : h.queue.Bounded) (ho : h.queue.Overruns)
    (msg : α) : ∃ ss h', exec next h (.discrSize :: ss) = some h' ∧
      h'.queue.buffer.fault = true := by
  obtain ⟨hin, htail, hpos, hle⟩ := hb.discrSize_overrun ho
  have hsize := hin.size
  rcases Nat.lt_or_eq_of_le hle with hlt | hfull
  · refine ⟨[.workProducer msg], { h with
      queue := h.queue.discrSize.insert msg
      inserted := h.inserted ++ [msg] }, ?_, Queue.insert_fault (by omega) msg⟩
    simp [exec_cons, next, hlt]
  · refine ⟨[.workConsumer, .workProducer msg], { h with
      queue := h.queue.discrSize.takeHead.2.decrement.insert msg
      inserted := h.inserted ++ [msg]
      handed := h.handed ++ [h.queue.discrSize.takeHead.1] }, ?_,
      Queue.insert_fault (q := h.queue.discrSize.takeHead.2.decrement) ?_ msg⟩
    · have hroom : h.queue.discrSize.takeHead.2.decrement.countMsg <
          h.queue.discrSize.takeHead.2.decrement.sizeQueue := by
        change h.queue.discrSize.countMsg - 1 < h.queue.discrSize.sizeQueue
        omega
      have hne : h.queue.discrSize.countMsg ≠ 0 := by omega
      simp [exec_cons, next, hne, hroom]
    · change h.queue.discrSize.buffer.size ≤ h.queue.discrSize.tail
      omega

/-- Every slot that a run touches lies in the block, whatever sections it is made of, as long as no
shrink leaves `tail` past the block. -/
theorem run_inBlock (ss : List (Section α)) (h : History α) (hrun : exec next start ss = some h)
    (hwraps : StepsMeet next Wraps start ss) : h.queue.InBlock := by
  have hbounded : h.queue.Bounded := exec_invariant_of_steps
    (I := fun h : History α => h.queue.Bounded) next_bounded Queue.init_queue_bounded hwraps hrun
  exact hbounded.toInBlock

theorem run_inBlock_full_growth :
    ∃ h : History ℕ, exec next start ((List.range 10).map .workProducer ++
      [.incremSize, .workProducer 10, .discrSize, .workConsumer, .discrSize]) = some h ∧
        h.queue.InBlock :=
  ⟨_, rfl, run_inBlock ((List.range 10).map .workProducer ++
    [.incremSize, .workProducer 10, .discrSize, .workConsumer, .discrSize]) _ rfl (by decide)⟩

/-- Nine messages, a shrink to nine slots, one removal and one insertion: slot nine is written. -/
theorem filled_shrink_not_inBlock :
    ¬ ∀ (ss : List (Section ℕ)) (h : History ℕ), exec next start ss = some h →
      h.queue.InBlock := by
  intro hall
  have hin := hall ((List.range 9).map .workProducer ++
    [.discrSize, .workConsumer, .workProducer 9]) _ rfl
  exact absurd hin.fault (by decide)

end History

end OsispLabs.Lab5.Condvar
