import OsispLabs.Lab5.Condvar.IndexSafety
import OsispLabs.Lab5.Condvar.Wakeup
import OsispLabs.Lib.Refinement

/-!
# The threads of `lab5_2.c` run their critical sections one after the other

A thread of `lab5_2.c` stops between its lock, its test, the insertion or the reading of the slot at
`head`, its signal, its decrement and its unlock, and may wait before the test; `incremSize` stops
between the growth of the block, its signal and the shift. Whatever the threads do in between, the
queue goes through the states of the sections run as a whole, in the order of their decisions.
-/
namespace OsispLabs.Lab5.Condvar
open Lib

variable {P C α : Type*} [DecidableEq P] [DecidableEq C] [Fintype P] [Fintype C]

namespace State

/-- The section that an operation decides: a producer or a consumer with its test, a resize with
its first change of the queue. -/
def sections (s : State P C α) : Action P C α → List (Section α)
  | .producer i =>
    match s.producer i with
    | .testing msg =>
      if s.queue.sizeQueue ≤ s.queue.countMsg then [] else [.workProducer msg]
    | _ => []
  | .consumer j =>
    match s.consumer j with
    | .testing => if s.queue.countMsg = 0 then [] else [.workConsumer]
    | _ => []
  | .main =>
    match s.main with
    | .growing => [.incremSize]
    | .shrinking => [.discrSize]
    | _ => []
  | _ => []

/-- The queue when the section under way is over: `incremSize` has its shift to make, and a consumer
its decrement. -/
def settled (s : State P C α) : Queue α :=
  if s.main = .grown ∨ s.main = .shifting then s.queue.openGap
  else if total ConsumerPc.removes s.consumer = 0 then s.queue else s.queue.decrement

end State

/-- The threads, with everything inserted by the producers and everything read by the consumers. -/
structure Recorded (P C α : Type*) where
  state : State P C α
  inserted : List α
  handed : List (Slot α)

namespace Recorded

def start : Recorded P C α := ⟨.start, [], []⟩

/-- What an operation inserts. -/
def insertion (r : Recorded P C α) (a : Action P C α) : List α :=
  (r.state.sections a).filterMap fun
    | .workProducer msg => some msg
    | .workConsumer | .incremSize | .discrSize => none

/-- What an operation reads from the slot at `head`. -/
def reading (r : Recorded P C α) (a : Action P C α) : List (Slot α) :=
  (r.state.sections a).filterMap fun
    | .workConsumer => some r.state.queue.takeHead.1
    | .workProducer _ | .incremSize | .discrSize => none

def next (r : Recorded P C α) (a : Action P C α) : Option (Recorded P C α) :=
  (r.state.next a).map fun t => ⟨t, r.inserted ++ r.insertion a, r.handed ++ r.reading a⟩

/-- The history of the sections so far. -/
def history (r : Recorded P C α) : History α := ⟨r.state.settled, r.inserted, r.handed⟩

/-- The sections decided along a run from the start, in their order. -/
def decided (as : List (Action P C α)) : List (Section α) :=
  emitted next (fun (r : Recorded P C α) a => r.state.sections a) start as

/-- A condition on the sections, for the operations that decide them. -/
def Meets (ok : History α → Section α → Prop) (r : Recorded P C α) (a : Action P C α) : Prop :=
  ∀ c ∈ r.state.sections a, ok r.history c

instance (ok : History α → Section α → Prop) [∀ h c, Decidable (ok h c)] (r : Recorded P C α)
    (a : Action P C α) : Decidable (r.Meets ok a) :=
  inferInstanceAs (Decidable (∀ c ∈ _, _))

end Recorded

namespace State

variable {s t : State P C α} {a : Action P C α}

omit [DecidableEq P] [DecidableEq C] [Fintype P] in
theorem settled_congr (hq : t.queue = s.queue)
    (hm : (t.main = .grown ∨ t.main = .shifting) ↔ (s.main = .grown ∨ s.main = .shifting))
    (hr : total ConsumerPc.removes t.consumer = total ConsumerPc.removes s.consumer) :
    t.settled = s.settled := by
  rw [settled, settled, hq, hr]
  simp only [hm]

omit [DecidableEq P] [DecidableEq C] [Fintype P] in
theorem settled_of_quiet (hm : ¬ (s.main = .grown ∨ s.main = .shifting))
    (hr : total ConsumerPc.removes s.consumer = 0) : s.settled = s.queue := by
  rw [settled, if_neg hm, if_pos hr]

omit [DecidableEq P] [DecidableEq C] [Fintype P] in
theorem settled_of_removing (hm : ¬ (s.main = .grown ∨ s.main = .shifting))
    (hr : total ConsumerPc.removes s.consumer ≠ 0) : s.settled = s.queue.decrement := by
  rw [settled, if_neg hm, if_neg hr]

omit [DecidableEq P] [DecidableEq C] [Fintype P] [Fintype C] in
theorem not_growing_of_owns (h : s.main.owns = 0) : ¬ (s.main = .grown ∨ s.main = .shifting) := by
  rintro (hm | hm) <;> rw [hm] at h <;> cases h

omit [DecidableEq P] [DecidableEq C] [Fintype P] in
theorem removes_eq_zero (h : total ConsumerPc.owns s.consumer = 0) :
    total ConsumerPc.removes s.consumer = 0 :=
  Nat.le_zero.mp (h ▸ total_mono ConsumerPc.removes_le s.consumer)

omit [DecidableEq P] [DecidableEq C] in
/-- While a producer owns the mutex no section is under way. -/
theorem Exclusive.settled_of_producer (hs : s.Exclusive) {i : P} (hi : (s.producer i).owns = 1) :
    s.settled = s.queue := by
  obtain ⟨-, hc, hm⟩ := hs.of_producer hi
  exact settled_of_quiet (not_growing_of_owns hm) (removes_eq_zero hc)

omit [DecidableEq P] [DecidableEq C] in
theorem Exclusive.of_main_owns (hs : s.Exclusive) (hmain : s.main.owns = 1) :
    total ConsumerPc.removes s.consumer = 0 := by
  have hm := s.mutex.toNat_le
  have hx : _ = s.mutex.toNat := hs
  exact removes_eq_zero (by omega)

omit [DecidableEq P] [DecidableEq C] [Fintype P] [Fintype C] in
theorem sections_length_le (s : State P C α) (a : Action P C α) : (s.sections a).length ≤ 1 := by
  cases a with
  | producer i =>
    simp only [sections]
    split
    · split <;> simp
    · simp
  | consumer j =>
    simp only [sections]
    split
    · split <;> simp
    · simp
  | main =>
    simp only [sections]
    split <;> simp
  | _ => exact Nat.zero_le 1

omit [DecidableEq P] [DecidableEq C] in
/-- With the mutex free no section is under way. -/
theorem Exclusive.settled_of_free (hs : s.Exclusive) (hfree : s.mutex = false) :
    s.settled = s.queue := by
  have hx : _ = s.mutex.toNat := hs
  rw [hfree, Bool.toNat_false] at hx
  exact settled_of_quiet (not_growing_of_owns (by omega)) (removes_eq_zero (by omega))

omit [DecidableEq P] in
/-- The removals due while one consumer stands between its lock and its unlock are its own. -/
theorem Exclusive.removes_of_consumer (hs : s.Exclusive) {j : C} (hj : (s.consumer j).owns = 1) :
    total ConsumerPc.removes s.consumer = (s.consumer j).removes := by
  have hx : _ = s.mutex.toNat := hs
  have hm := s.mutex.toNat_le
  have hothers := total_setConsumer ConsumerPc.owns s j .outside rfl
  have hremoves := total_setConsumer ConsumerPc.removes s j .outside rfl
  have hle := total_mono ConsumerPc.removes_le (s.setConsumer j .outside).consumer
  have howns : ConsumerPc.outside.owns = 0 := rfl
  have hnone : ConsumerPc.outside.removes = 0 := rfl
  omega

omit [DecidableEq P] [Fintype P] in
theorem removes_moveConsumer {j : C} {old new : ConsumerPc} (hpc : s.consumer j = old)
    (hr : new.removes = old.removes) :
    total ConsumerPc.removes (s.setConsumer j new).consumer =
      total ConsumerPc.removes s.consumer := by
  have hc := total_setConsumer ConsumerPc.removes s j new hpc
  omega

end State

namespace Recorded
open State

variable {r : Recorded P C α} {t : State P C α} {a : Action P C α}

/-- The state after the operation is the one after the section that it decides, if any. -/
def Matches (r : Recorded P C α) (a : Action P C α) (t : State P C α) : Prop :=
  exec History.next r.history (r.state.sections a) =
    some ⟨t.settled, r.inserted ++ r.insertion a, r.handed ++ r.reading a⟩

omit [DecidableEq P] [DecidableEq C] [Fintype P] in
theorem matches_of_none (hnone : r.state.sections a = []) (hsettled : t.settled = r.state.settled) :
    r.Matches a t := by
  rw [Matches, insertion, reading, hnone, hsettled]
  simp [history]

omit [DecidableEq C] in
theorem matches_insert (hs : r.state.Exclusive) {i : P} {msg : α}
    (hpc : r.state.producer i = .testing msg)
    (hroom : r.state.queue.countMsg < r.state.queue.sizeQueue) :
    r.Matches (.producer i)
      { r.state.setProducer i .inserted with queue := r.state.queue.insert msg } := by
  obtain ⟨-, hc, hm⟩ := hs.of_producer (i := i) (by rw [hpc]; rfl)
  have hsections : r.state.sections (.producer i) = [.workProducer msg] := by
    simp only [sections, hpc, if_neg (Nat.not_le.mpr hroom)]
  have hbefore := hs.settled_of_producer (i := i) (by rw [hpc]; rfl)
  have hafter : ({ r.state.setProducer i .inserted with
      queue := r.state.queue.insert msg } : State P C α).settled = r.state.queue.insert msg :=
    settled_of_quiet (not_growing_of_owns hm) (removes_eq_zero hc)
  rw [Matches, insertion, reading, hsections, exec_single, hafter, history, hbefore]
  simp [History.next, hroom]

omit [DecidableEq P] in
theorem matches_take (hs : r.state.Exclusive) {j : C} (hpc : r.state.consumer j = .testing)
    (hpos : 0 < r.state.queue.countMsg) :
    r.Matches (.consumer j)
      { r.state.setConsumer j .taken with queue := r.state.queue.takeHead.2 } := by
  obtain ⟨-, -, hm⟩ := hs.of_consumer (j := j) (by rw [hpc]; rfl)
  have hnone := hs.removes_of_consumer (j := j) (by rw [hpc]; rfl)
  have hone := total_setConsumer ConsumerPc.removes r.state j .taken hpc
  rw [hpc] at hnone
  have hsections : r.state.sections (.consumer j) = [.workConsumer] := by
    simp only [sections, hpc, if_neg (Nat.pos_iff_ne_zero.mp hpos)]
  have hbefore : r.state.settled = r.state.queue := settled_of_quiet (not_growing_of_owns hm) hnone
  have hafter : ({ r.state.setConsumer j .taken with
      queue := r.state.queue.takeHead.2 } : State P C α).settled =
        r.state.queue.takeHead.2.decrement := by
    refine settled_of_removing (not_growing_of_owns hm) ?_
    simp only [ConsumerPc.removes] at hone hnone
    change total ConsumerPc.removes (r.state.setConsumer j .taken).consumer ≠ 0
    omega
  rw [Matches, insertion, reading, hsections, exec_single, hafter, history, hbefore]
  simp [History.next, Nat.pos_iff_ne_zero.mp hpos]

omit [DecidableEq P] [DecidableEq C] in
theorem matches_enlarge (hs : r.state.Exclusive) (hpc : r.state.main = .growing) :
    r.Matches .main { r.state with queue := r.state.queue.enlarge, main := .grown } := by
  have hnone := hs.of_main_owns (by rw [hpc]; rfl)
  have hsections : r.state.sections .main = [.incremSize] := by simp only [sections, hpc]
  have hbefore : r.state.settled = r.state.queue := settled_of_quiet (by simp [hpc]) hnone
  have hafter : ({ r.state with queue := r.state.queue.enlarge, main := .grown } :
      State P C α).settled = r.state.queue.incremSize := if_pos (.inl rfl)
  rw [Matches, insertion, reading, hsections, exec_single, hafter, history, hbefore]
  simp [History.next]

omit [DecidableEq P] [DecidableEq C] in
theorem matches_shrink (hs : r.state.Exclusive) (hpc : r.state.main = .shrinking) :
    r.Matches .main { r.state with queue := r.state.queue.discrSize, main := .leaving } := by
  have hnone := hs.of_main_owns (by rw [hpc]; rfl)
  have hsections : r.state.sections .main = [.discrSize] := by simp only [sections, hpc]
  have hbefore : r.state.settled = r.state.queue := settled_of_quiet (by simp [hpc]) hnone
  have hafter : ({ r.state with queue := r.state.queue.discrSize, main := .leaving } :
      State P C α).settled = r.state.queue.discrSize := settled_of_quiet (by simp) hnone
  rw [Matches, insertion, reading, hsections, exec_single, hafter, history, hbefore]
  simp [History.next]

theorem step_matches (h : Step r.state a t) (hs : r.state.Exclusive) : r.Matches a t := by
  cases h with
  | lockProducer i msg hpc hfree => exact matches_of_none rfl (settled_congr rfl Iff.rfl rfl)
  | sleepProducer i msg hpc hfull =>
    refine matches_of_none ?_ (settled_congr rfl Iff.rfl rfl)
    simp only [sections, hpc, if_pos hfull]
  | insert i msg hpc hroom => exact matches_insert hs hpc hroom
  | relockSignalled i msg hpc hfree | relockSpurious i msg hpc hfree =>
    refine matches_of_none ?_ (settled_congr rfl Iff.rfl rfl)
    simp only [sections, hpc]
  | signalFull i j hpc hwait =>
    exact matches_of_none rfl
      (settled_congr rfl Iff.rfl (removes_moveConsumer (s := r.state) hwait rfl))
  | signalFullNone i hpc hnone => exact matches_of_none rfl (settled_congr rfl Iff.rfl rfl)
  | unlockProducer i hpc =>
    refine matches_of_none ?_ (settled_congr rfl Iff.rfl rfl)
    simp only [sections, hpc]
  | wakeProducer i msg hpc => exact matches_of_none rfl (settled_congr rfl Iff.rfl rfl)
  | lockConsumer j hpc hfree | unlockConsumer j hpc =>
    refine matches_of_none ?_ (settled_congr rfl Iff.rfl (removes_moveConsumer hpc rfl))
    simp only [sections, hpc]
  | sleepConsumer j hpc hempty =>
    refine matches_of_none ?_ (settled_congr rfl Iff.rfl (removes_moveConsumer hpc rfl))
    simp only [sections, hpc, if_pos hempty]
  | take j hpc hpos => exact matches_take hs hpc hpos
  | relockConsumer j hpc hfree =>
    rcases hpc with hpc | hpc
    · refine matches_of_none ?_ (settled_congr rfl Iff.rfl (removes_moveConsumer hpc rfl))
      simp only [sections, hpc]
    · refine matches_of_none ?_ (settled_congr rfl Iff.rfl (removes_moveConsumer hpc rfl))
      simp only [sections, hpc]
  | signalEmpty j i msg hpc hwait =>
    exact matches_of_none rfl (settled_congr rfl Iff.rfl (removes_moveConsumer hpc rfl))
  | signalEmptyNone j hpc hnone =>
    exact matches_of_none rfl (settled_congr rfl Iff.rfl (removes_moveConsumer hpc rfl))
  | decrement j hpc =>
    obtain ⟨-, -, hm⟩ := hs.of_consumer (j := j) (by rw [hpc]; rfl)
    have hone := hs.removes_of_consumer (j := j) (by rw [hpc]; rfl)
    have hafter := total_setConsumer ConsumerPc.removes r.state j .leaving hpc
    rw [hpc] at hone
    simp only [ConsumerPc.removes] at hone hafter
    refine matches_of_none ?_ ?_
    · simp only [sections, hpc]
    · rw [settled_of_removing (s := r.state) (not_growing_of_owns hm) (by omega)]
      refine settled_of_quiet (not_growing_of_owns hm) ?_
      change total ConsumerPc.removes (r.state.setConsumer j .leaving).consumer = 0
      omega
  | wakeConsumer j hpc =>
    exact matches_of_none rfl (settled_congr rfl Iff.rfl (removes_moveConsumer hpc rfl))
  | lockGrow hpc hfree | lockShrink hpc hfree =>
    exact matches_of_none rfl (settled_congr rfl (by simp [hpc]) rfl)
  | enlarge hpc => exact matches_enlarge hs hpc
  | signalGrown i msg hpc hwait =>
    exact matches_of_none rfl (settled_congr rfl (by simp [hpc]) rfl)
  | signalGrownNone hpc hnone =>
    exact matches_of_none rfl (settled_congr rfl (by simp [hpc]) rfl)
  | openGap hpc =>
    have hnone := hs.of_main_owns (by rw [hpc]; rfl)
    refine matches_of_none ?_ ?_
    · simp only [sections, hpc]
    · rw [show r.state.settled = r.state.queue.openGap from if_pos (.inr hpc)]
      exact settled_of_quiet (by simp) hnone
  | shrink hpc => exact matches_shrink hs hpc
  | unlockMain hpc =>
    refine matches_of_none ?_ (settled_congr rfl (by simp [hpc]) rfl)
    simp only [sections, hpc]

/-- The recorded threads and the histories of sections. -/
def Follows (r : Recorded P C α) (h : History α) : Prop := r.state.Lawful ∧ r.history = h

theorem next_eq_some {r' : Recorded P C α} (h : r.next a = some r') :
    ∃ t, r.state.next a = some t ∧
      r' = ⟨t, r.inserted ++ r.insertion a, r.handed ++ r.reading a⟩ := by
  obtain ⟨t, ht, rfl⟩ := Option.map_eq_some_iff.mp h
  exact ⟨t, ht, rfl⟩

/-- The threads refine the sections: an operation is matched by the section it decides. -/
theorem next_follows (r : Recorded P C α) (h : History α) (a : Action P C α) (r' : Recorded P C α)
    (hfollows : Follows r h) (hnext : r.next a = some r') :
    ∃ h', exec History.next h (r.state.sections a) = some h' ∧ Follows r' h' := by
  obtain ⟨hs, rfl⟩ := hfollows
  obtain ⟨t, ht, rfl⟩ := next_eq_some hnext
  exact ⟨_, step_matches (next_step ht) hs.exclusive, next_lawful _ a t hs ht, rfl⟩

omit [DecidableEq P] [DecidableEq C] in
theorem start_follows : Follows (start : Recorded P C α) History.start := by
  have hsettled : (State.start : State P C α).settled = .init_queue :=
    settled_of_quiet (by simp [State.start]) (total_eq_zero fun _ => rfl)
  refine ⟨start_lawful, ?_⟩
  exact congrArg (fun queue => (⟨queue, [], []⟩ : History α)) hsettled

/-- Whatever the threads, the wake-ups and the resizes do: the sections they decide, run one after
the other as a whole, insert and hand out the same messages and leave the same queue. -/
theorem run_linearized (as : List (Action P C α)) (r : Recorded P C α)
    (hrun : exec next start as = some r) :
    exec History.next History.start (decided as) = some r.history ∧
      (r.state.mutex = false → r.history.queue = r.state.queue) := by
  obtain ⟨_, hsections, hlawful, rfl⟩ := exec_emitted next_follows start_follows hrun
  exact ⟨hsections, hlawful.exclusive.settled_of_free⟩

/-- A message inserted while the consumer sleeps and a growth before it is awake; the run stops
short of the consumer's decrement. -/
def resizedRun : List (Action Bool Unit ℕ) :=
  [.consumer (), .consumer (), .produce true 7, .producer true, .signalFull true (some ()),
    .producer true, .incremSize, .main, .signalGrown none, .main, .main, .consumer (), .consumer (),
    .signalEmpty () none]

theorem run_linearized_resized :
    ∃ r : Recorded Bool Unit ℕ, exec next start resizedRun = some r ∧
      exec History.next History.start [.workProducer 7, .incremSize, .workConsumer] =
        some r.history ∧
      r.handed = [.message 7] ∧ r.state.queue.countMsg = 1 ∧ r.history.queue.countMsg = 0 :=
  ⟨_, rfl, (run_linearized resizedRun _ rfl).1, rfl, rfl, by decide⟩

/-- What `ok` asks of the sections, asked of the operations that decide them. -/
theorem permitted_refines (ok : History α → Section α → Prop) [∀ h c, Decidable (ok h c)] :
    Refines (permit (next (P := P) (C := C)) (Meets ok)) (permit History.next ok) Follows := by
  rintro r _ a r' ⟨hs, rfl⟩ hpermit
  obtain ⟨hmeets, hnext⟩ := permit_eq_some_iff.mp hpermit
  obtain ⟨t, ht, rfl⟩ := next_eq_some hnext
  have hmatches := step_matches (next_step ht) hs.exclusive
  refine ⟨_, _, exec_permit_iff.mpr ⟨?_, hmatches⟩, next_lawful _ a t hs ht, rfl⟩
  exact stepsMeet_of_atMostOne (sections_length_le _ a) hmeets

/-- Where each resize is permitted, every interleaving of the threads delivers in order. -/
theorem run_threads_fifo (as : List (Action P C α)) (r : Recorded P C α)
    (hrun : exec next start as = some r)
    (hkeeps : StepsMeet next (Meets History.Keeps) start as) : r.history.Fifo := by
  have hordered : ∀ (ss : List (Section α)) (h : History α),
      exec (permit History.next History.Keeps) History.start ss = some h → h.Ordered := by
    intro ss h hss
    obtain ⟨hmeets, hss⟩ := exec_permit_iff.mp hss
    exact exec_invariant_of_steps History.next_ordered History.start_ordered hmeets hss
  have hpermitted := exec_permit_iff.mpr ⟨hkeeps, hrun⟩
  obtain ⟨_, ⟨-, rfl⟩, hfinal⟩ :=
    (permitted_refines History.Keeps).transfer start_follows hordered hpermitted
  exact hfinal.fifo

theorem run_threads_fifo_grown :
    ∃ r : Recorded Bool Unit ℕ, exec next start resizedRun = some r ∧ r.history.Fifo :=
  ⟨_, rfl, run_threads_fifo resizedRun _ rfl (by decide)⟩

/-- A loop of copies does not forget an access outside the block. -/
theorem fault_of_shiftUp {b : Buffer α} {stop i : ℕ} (h : (b.shiftUp stop i).fault = false) :
    b.fault = false := by
  induction i generalizing b with
  | zero => exact h
  | succ i ih =>
    rw [Buffer.shiftUp] at h
    split at h
    · have hcopy := ih h
      simp only [Buffer.copy, Buffer.store, Buffer.load, Bool.or_eq_false_iff] at hcopy
      exact hcopy.1.1
    · exact h

omit [DecidableEq P] [DecidableEq C] [Fintype P] in
/-- The queue in the middle of a section has touched no more slots than at its end. -/
theorem inBlock_of_settled {s : State P C α} (h : s.settled.InBlock) : s.queue.InBlock := by
  unfold State.settled at h
  split_ifs at h with hmain hnone
  · obtain ⟨hfault, hsize⟩ := h
    unfold Queue.openGap at hfault hsize
    split at hfault
    case isTrue hwrapped =>
      rw [if_pos hwrapped] at hsize
      exact ⟨fault_of_shiftUp hfault, (Buffer.shiftUp_size _ _ _).symm.trans hsize⟩
    case isFalse hnot =>
      rw [if_neg hnot] at hsize
      exact ⟨hfault, hsize⟩
  · exact h
  · exact ⟨h.fault, h.size⟩

/-- Where no shrink leaves `tail` past the block, no thread touches a slot outside it, wherever the
others have stopped. -/
theorem run_threads_inBlock (as : List (Action P C α)) (r : Recorded P C α)
    (hrun : exec next start as = some r)
    (hwraps : StepsMeet next (Meets History.Wraps) start as) : r.state.queue.InBlock := by
  have hbounded : ∀ (ss : List (Section α)) (h : History α),
      exec (permit History.next History.Wraps) History.start ss = some h → h.queue.Bounded := by
    intro ss h hss
    obtain ⟨hmeets, hss⟩ := exec_permit_iff.mp hss
    exact exec_invariant_of_steps (I := fun h : History α => h.queue.Bounded)
      History.next_bounded Queue.init_queue_bounded hmeets hss
  have hpermitted := exec_permit_iff.mpr ⟨hwraps, hrun⟩
  obtain ⟨_, ⟨-, rfl⟩, hfinal⟩ :=
    (permitted_refines History.Wraps).transfer start_follows hbounded hpermitted
  exact inBlock_of_settled hfinal.toInBlock

theorem run_threads_inBlock_growing :
    ∃ r : Recorded Bool Unit ℕ, exec next start (resizedRun.take 8) = some r ∧
      r.state.queue.InBlock :=
  ⟨_, rfl, run_threads_inBlock (resizedRun.take 8) _ rfl (by decide)⟩

end Recorded

end OsispLabs.Lab5.Condvar
