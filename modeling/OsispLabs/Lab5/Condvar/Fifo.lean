import OsispLabs.Lab5.Condvar.Queue

/-!
# Whole-run order of the monitor queue

Runs of the four sections in any order, with the messages inserted by producers and the slots
handed to consumers. Two steps break the ring: growing it when it is full, and shrinking it when
the messages would fill it from slot zero.
-/
namespace OsispLabs.Lab5.Condvar
open Lib

variable {α : Type*}

/-- The critical sections run under `queue.mutex`. -/
inductive Section (α : Type*) where
  | workProducer (msg : α)
  | workConsumer
  | incremSize
  | discrSize
  deriving DecidableEq, Repr

/-- The queue with everything inserted into it and everything handed out of it. -/
structure History (α : Type*) where
  queue : Queue α
  inserted : List α
  handed : List (Slot α)

namespace History

def start : History α := ⟨.init_queue, [], []⟩

/-- One critical section. A producer waits while `countMsg >= sizeQueue`, a consumer while
`countMsg == 0`. -/
def next (h : History α) : Section α → Option (History α)
  | .workProducer msg =>
    if h.queue.countMsg < h.queue.sizeQueue then
      some { h with queue := h.queue.insert msg, inserted := h.inserted ++ [msg] }
    else none
  | .workConsumer =>
    if h.queue.countMsg = 0 then none
    else some { h with
      queue := h.queue.takeHead.2.decrement
      handed := h.handed ++ [h.queue.takeHead.1] }
  | .incremSize => some { h with queue := h.queue.incremSize }
  | .discrSize => some { h with queue := h.queue.discrSize }

/-- What was handed out is a prefix of what was inserted, and the rest is pending in order. -/
def Fifo (h : History α) : Prop :=
  h.handed <+: h.inserted.map .message ∧
    h.inserted.map .message = h.handed ++ h.queue.messages

/-- The sections that keep the ring: `incremSize` below capacity, and `discrSize` unless it
would fill a ring whose messages start at slot zero. -/
def Keeps (h : History α) : Section α → Prop
  | .incremSize => h.queue.countMsg < h.queue.sizeQueue ∨ h.queue.sizeQueue = 0
  | .discrSize => ¬ (h.queue.head = 0 ∧ 0 < h.queue.countMsg ∧
      h.queue.countMsg + 1 = h.queue.sizeQueue)
  | _ => True

instance (h : History α) : (s : Section α) → Decidable (h.Keeps s)
  | .incremSize => inferInstanceAs (Decidable (_ ∨ _))
  | .discrSize => inferInstanceAs (Decidable (¬ _))
  | .workProducer _ => isTrue trivial
  | .workConsumer => isTrue trivial

/-- The invariant of permitted runs: the ring holds what was inserted and not handed out. -/
def Ordered (h : History α) : Prop :=
  ∃ ms, h.queue.Holds ms ∧ h.inserted.map .message = h.handed ++ ms

theorem Ordered.fifo {h : History α} (ho : h.Ordered) : h.Fifo := by
  obtain ⟨ms, hms, hin⟩ := ho
  refine ⟨⟨ms, hin.symm⟩, ?_⟩
  rw [hin, hms.messages_eq]

theorem start_ordered : (start : History α).Ordered :=
  ⟨[], Queue.init_queue_holds, rfl⟩

theorem next_ordered (h : History α) (s : Section α) (h' : History α) (ho : h.Ordered)
    (hk : h.Keeps s) (hs : h.next s = some h') : h'.Ordered := by
  obtain ⟨ms, hms, hin⟩ := ho
  cases s with
  | workProducer msg =>
    simp only [next] at hs
    split at hs
    · obtain rfl := Option.some.inj hs
      refine ⟨ms ++ [.message msg], hms.insert ‹_› msg, ?_⟩
      rw [List.map_append, hin, List.append_assoc]
      rfl
    · cases hs
  | workConsumer =>
    simp only [next] at hs
    split at hs
    · cases hs
    · obtain rfl := Option.some.inj hs
      have hc := hms.count
      cases ms with
      | nil => exact absurd hc ‹_›
      | cons x ms =>
        refine ⟨ms, hms.remove, ?_⟩
        change _ = (h.handed ++ [h.queue.takeHead.1]) ++ ms
        rw [hms.takeHead_fst, hin, List.append_assoc]
        rfl
  | incremSize =>
    obtain rfl := Option.some.inj hs
    exact ⟨ms, hms.incremSize hk, hin⟩
  | discrSize =>
    obtain rfl := Option.some.inj hs
    exact ⟨ms, hms.discrSize hk, hin⟩

/-- A step out of an ordered state that `Keeps` excludes leaves a ring that holds no list of the
pending messages. -/
theorem next_unordered (h : History α) (s : Section α) (h' : History α) (ho : h.Ordered)
    (hk : ¬ h.Keeps s) (hs : h.next s = some h') : ¬ h'.Ordered := by
  obtain ⟨ms, hms, hin⟩ := ho
  rintro ⟨ms', hms', hin'⟩
  cases s with
  | workProducer msg => exact hk trivial
  | workConsumer => exact hk trivial
  | incremSize =>
    obtain rfl := Option.some.inj hs
    have hlen : ms'.length = ms.length := by
      rw [List.append_cancel_left (hin'.symm.trans hin)]
    have hle := hms.countMsg_le
    simp only [Keeps, not_or] at hk
    exact hms.incremSize_full (by omega) (by omega) ms' hlen hms'
  | discrSize =>
    obtain rfl := Option.some.inj hs
    simp only [Keeps, not_not] at hk
    exact hms.discrSize_fill hk.1 hk.2.1 hk.2.2 ms' hms'

/-- Every run of permitted sections from `init_queue` delivers in order, whatever resizes lie
between. -/
theorem run_fifo (ss : List (Section α)) (h : History α) (hrun : exec next start ss = some h)
    (hkeep : StepsMeet next Keeps start ss) : h.Fifo :=
  (exec_invariant_of_steps (I := Ordered) (fun h s h' => next_ordered h s h') start_ordered
    hkeep hrun).fifo

theorem run_fifo_resized :
    ∃ h : History ℕ, exec next start [.workProducer 1, .workProducer 2, .workConsumer,
      .incremSize, .workProducer 3, .discrSize, .discrSize, .workConsumer] = some h ∧ h.Fifo :=
  ⟨_, rfl, run_fifo [.workProducer 1, .workProducer 2, .workConsumer, .incremSize,
    .workProducer 3, .discrSize, .discrSize, .workConsumer] _ rfl (by decide)⟩

/-- Ten messages, one growth and an eleventh message: slot zero is overwritten while unread. -/
theorem grown_full_ring_not_fifo :
    ¬ ∀ (ss : List (Section ℕ)) (h : History ℕ), exec next start ss = some h → h.Fifo := by
  intro hall
  have hf := hall ((List.range 10).map .workProducer ++ [.incremSize, .workProducer 10]) _ rfl
  exact absurd hf.2 (by decide)

end History

end OsispLabs.Lab5.Condvar
