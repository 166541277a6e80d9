import OsispLabs.Lab5.Semaphore.Lines
import OsispLabs.Lab5.Semaphore.Fifo
import OsispLabs.Lab5.Semaphore.Stored
import OsispLabs.Lib.Cancellation

/-!
# Messages and slots of destroyed threads

A thread that is destroyed takes the token it holds with it, and its `cleanup_handler` unlocks the
mutex whoever has locked it. A consumer that ends between its `sem_wait` on `full` and its lock
leaves one message in the ring for good; a second thread that enters a critical section may undo
the `++` of the first. In all other runs every message and every slot can still be had.
-/
namespace OsispLabs.Lab5.Semaphore
open Lib

variable {P C α : Type*}

namespace Lines

/-- The thread that makes the step. -/
def threadOf : LineAction P C α → Option (P ⊕ C)
  | .produce i _ | .producer i => some (.inl i)
  | .consumer j => some (.inr j)

def atStart (s : Lines P C α) : P ⊕ C → Bool
  | .inl i =>
    match s.producer i with
    | .outside => true
    | _ => false
  | .inr j => s.consumer j = .outside

/-- The cancellation points: `sem_wait`, the prints and `sleep` outside the critical section, and a
consumer's print between its `sem_wait` and its lock. -/
def cancel (s : Lines P C α) : P ⊕ C → Option (Lines P C α)
  | .inl i =>
    match s.producer i with
    | .outside => some s
    | _ => none
  | .inr j => if s.consumer j = .outside ∨ s.consumer j = .token then some s else none

/-- The thread is between its lock and its unlock. -/
def Inside (s : Lines P C α) : P ⊕ C → Prop
  | .inl i => (s.producer i).inside = true
  | .inr j => (s.consumer j).inside = true

/-- The thread stands at the same line in both states. -/
def SamePlace (s t : Lines P C α) : P ⊕ C → Prop
  | .inl i => t.producer i = s.producer i
  | .inr j => t.consumer j = s.consumer j

/-- The messages added and not yet read, oldest first. -/
def unread (s : Lines P C α) : List (Slot α) := (s.produced.map .message).drop s.consumed.length

/-- No thread is between its count and its post. -/
structure Settled (s : Lines P C α) : Prop where
  producer : ∀ i, (s.producer i).fused ≠ .written
  consumer : ∀ j, (s.consumer j).fused ≠ .taken

variable {s t : Lines P C α} {a : LineAction P C α} {w : P ⊕ C}

theorem SamePlace.atStart (h : SamePlace s t w) : t.atStart w = s.atStart w := by
  cases w with
  | inl i => simp only [Lines.atStart, show t.producer i = s.producer i from h]
  | inr j => simp only [Lines.atStart, show t.consumer j = s.consumer j from h]

theorem SamePlace.cancel (h : SamePlace s t w) : (t.cancel w).isSome = (s.cancel w).isSome := by
  cases w with
  | inl i =>
    simp only [Lines.cancel, show t.producer i = s.producer i from h]
    split <;> rfl
  | inr j =>
    simp only [Lines.cancel, show t.consumer j = s.consumer j from h]
    split <;> rfl

theorem cancel_eq_some (h : s.cancel w = some t) : t = s := by
  cases w <;> simp only [cancel] at h <;> split at h <;> cases h <;> rfl

theorem outside_of_cancel_inl {i : P} (h : (s.cancel (.inl i)).isSome) :
    s.producer i = .outside := by
  simp only [cancel] at h
  split at h
  · assumption
  · cases h

theorem outside_of_cancel_inr {j : C} (h : (s.cancel (.inr j)).isSome)
    (hclaimed : (s.consumer j).fused.claimed = 0) : s.consumer j = .outside := by
  simp only [cancel] at h
  split at h
  · rename_i hpoint
    rcases hpoint with hline | hline
    · exact hline
    · rw [hline] at hclaimed
      cases hclaimed
  · cases h

/-- Leaving a section changes no counter and no capacity. -/
theorem finish_counts (s : Lines P C α) (o : Option (P ⊕ C)) :
    (s.finish o).countAdd = s.ring.countAdd ∧ (s.finish o).countGet = s.ring.countGet ∧
      (s.finish o).sizeQueue = s.ring.sizeQueue := by
  rcases o with _ | i | j
  · exact ⟨rfl, rfl, rfl⟩
  · simp only [finish]
    cases s.producer i <;> exact ⟨rfl, rfl, rfl⟩
  · simp only [finish]
    cases s.consumer j <;> exact ⟨rfl, rfl, rfl⟩

/-- Between a post and the next count nothing of a section is left to do. -/
theorem Settled.finish (h : s.Settled) (o : Option (P ⊕ C)) :
    s.finish o = s.ring ∧ s.reading o = [] := by
  rcases o with _ | i | j
  · exact ⟨rfl, rfl⟩
  · refine ⟨?_, rfl⟩
    have hne := h.producer i
    simp only [Lines.finish]
    cases hline : s.producer i <;> simp_all [ProducerLine.fused, ProducerLine.finish]
  · have hne := h.consumer j
    simp only [Lines.finish, Lines.reading]
    cases hline : s.consumer j <;>
      simp_all [ConsumerLine.fused, ConsumerLine.finish, ConsumerLine.reading]

variable [DecidableEq P] [DecidableEq C]

/-- `pthread_mutex_unlock` by a thread that then ends. -/
def cleanup_handler (s : Lines P C α) : P ⊕ C → Lines P C α
  | .inl i => { s.setProducer i .outside with mutex := false }
  | .inr j => { s.setConsumer j .outside with mutex := false }

omit [DecidableEq C] in
theorem stepProducer_lines {i : P} (h : s.stepProducer i = some t) :
    (∃ line, t.producer = Function.update s.producer i line) ∧ t.consumer = s.consumer := by
  unfold stepProducer at h
  cases hline : s.producer i with
  | outside => simp [hline] at h
  | token msg =>
    simp only [hline] at h
    split at h <;> cases h
    exact ⟨⟨_, rfl⟩, rfl⟩
  | _ =>
    simp only [hline] at h
    cases h
    exact ⟨⟨_, rfl⟩, rfl⟩

omit [DecidableEq P] in
theorem stepConsumer_lines {j : C} (h : s.stepConsumer j = some t) :
    (∃ line, t.consumer = Function.update s.consumer j line) ∧ t.producer = s.producer := by
  unfold stepConsumer at h
  cases hline : s.consumer j with
  | outside | token =>
    simp only [hline] at h
    split at h <;> cases h
    exact ⟨⟨_, rfl⟩, rfl⟩
  | _ =>
    simp only [hline] at h
    cases h
    exact ⟨⟨_, rfl⟩, rfl⟩

omit [DecidableEq C] in
theorem SamePlace.of_producer {i : P} (hlines : (∃ line, t.producer =
    Function.update s.producer i line) ∧ t.consumer = s.consumer) (hw : some (.inl i) ≠ some w) :
    SamePlace s t w := by
  obtain ⟨⟨line, hproducer⟩, hconsumer⟩ := hlines
  cases w with
  | inl k =>
    have hne : k ≠ i := fun hk => hw (by rw [hk])
    exact (congrFun hproducer k).trans (Function.update_of_ne hne _ _)
  | inr j => exact congrFun hconsumer j

omit [DecidableEq P] in
theorem SamePlace.of_consumer {j : C} (hlines : (∃ line, t.consumer =
    Function.update s.consumer j line) ∧ t.producer = s.producer) (hw : some (.inr j) ≠ some w) :
    SamePlace s t w := by
  obtain ⟨⟨line, hconsumer⟩, hproducer⟩ := hlines
  cases w with
  | inl i => exact congrFun hproducer i
  | inr k =>
    have hne : k ≠ j := fun hk => hw (by rw [hk])
    exact (congrFun hconsumer k).trans (Function.update_of_ne hne _ _)

/-- A step leaves the other threads where they are. -/
theorem next_samePlace (h : s.next a = some t) (hw : threadOf a ≠ some w) : SamePlace s t w := by
  cases a with
  | produce i msg =>
    simp only [next] at h
    split at h
    · split at h <;> cases h
      exact SamePlace.of_producer ⟨⟨_, rfl⟩, rfl⟩ hw
    · cases h
  | producer i => exact SamePlace.of_producer (stepProducer_lines h) hw
  | consumer j => exact SamePlace.of_consumer (stepConsumer_lines h) hw

theorem cleanup_handler_samePlace (s : Lines P C α) {v : P ⊕ C} (hw : w ≠ v) :
    SamePlace s (s.cleanup_handler v) w := by
  have hne : some v ≠ some w := fun h => hw (Option.some.inj h).symm
  cases v with
  | inl i => exact SamePlace.of_producer ⟨⟨_, rfl⟩, rfl⟩ hne
  | inr j => exact SamePlace.of_consumer ⟨⟨_, rfl⟩, rfl⟩ hne

theorem cleanup_handler_atStart (s : Lines P C α) (w : P ⊕ C) :
    (s.cleanup_handler w).atStart w = true := by
  cases w <;> simp [cleanup_handler, atStart, setProducer, setConsumer]

end Lines

/-- The threads under cancellation. -/
abbrev Threaded (P C α : Type*) := Cancellable (Lines P C α) (P ⊕ C)

abbrev ThreadedAction (P C α : Type*) := Cancellable.Action (LineAction P C α) (P ⊕ C)

namespace Threaded

/-- Where a consumer that has not been destroyed stands. -/
def liveConsumer (c : Threaded P C α) (j : C) : ConsumerPc :=
  if c.life (.inr j) = .gone then .outside else (c.base.consumer j).fused

def liveProducer (c : Threaded P C α) (i : P) : ProducerPc α :=
  if c.life (.inl i) = .gone then .outside else (c.base.producer i).fused

/-- The thread ends without a full token, and the mutex is taken where nobody is inside. -/
def Orderly (c : Threaded P C α) : ThreadedAction P C α → Prop
  | .step a => c.base.EntersVacant a
  | .cleanup (.inr j) => (c.base.consumer j).fused.claimed = 0
  | .cleanup (.inl _) | .request _ | .act _ => True

variable [Fintype P] [Fintype C]

instance (c : Threaded P C α) : (a : ThreadedAction P C α) → Decidable (c.Orderly a)
  | .step a => inferInstanceAs (Decidable (c.base.EntersVacant a))
  | .cleanup (.inr j) => inferInstanceAs (Decidable ((c.base.consumer j).fused.claimed = 0))
  | .cleanup (.inl _) | .request _ | .act _ => inferInstanceAs (Decidable True)

/-- Every stored message and every free slot has its token, with a live thread or in a semaphore;
a thread between its count and its post still owes one. -/
structure Accounted (c : Threaded P C α) : Prop where
  messages : (c.base.full : ℤ) + total ConsumerPc.claimed c.liveConsumer +
    total ProducerPc.unposted c.liveProducer = c.base.ring.countAdd - c.base.ring.countGet
  slots : (c.base.empty : ℤ) + total ProducerPc.reserved c.liveProducer +
    total ConsumerPc.unposted c.liveConsumer =
      c.base.ring.sizeQueue - (c.base.ring.countAdd - c.base.ring.countGet)

/-- All stored messages and all free slots can still be had. -/
structure Deliverable (c : Threaded P C α) : Prop where
  messages : (c.base.full : ℤ) + total ConsumerPc.claimed c.liveConsumer =
    c.base.ring.countAdd - c.base.ring.countGet
  slots : (c.base.empty : ℤ) + total ProducerPc.reserved c.liveProducer =
    c.base.ring.sizeQueue - (c.base.ring.countAdd - c.base.ring.countGet)

/-- What every orderly run keeps: the fused sections hold the unread messages, threads about to end
are at cancellation points, and threads that have ended hold nothing. -/
structure Sound (n : ℕ) (c : Threaded P C α) : Prop where
  fused : ∃ o u ms, c.base.Fuses o u ∧ u.Bounded n ms ∧ u.Backed
  exiting : ∀ w, c.life w = .exiting → (c.base.cancel w).isSome
  gone : ∀ w, c.life w = .gone → c.base.atStart w = true

variable {n : ℕ} {c d : Threaded P C α} {a : ThreadedAction P C α}

/-- Threads that have ended hold no token. -/
theorem Sound.live (hc : Sound n c) :
    c.liveConsumer = (fun j => (c.base.consumer j).fused) ∧
      c.liveProducer = fun i => (c.base.producer i).fused := by
  constructor
  · funext j
    rw [liveConsumer]
    split_ifs with hgone
    · have hstart : decide (c.base.consumer j = .outside) = true := hc.gone _ hgone
      rw [of_decide_eq_true hstart]
      rfl
    · rfl
  · funext i
    rw [liveProducer]
    split_ifs with hgone
    · have hstart := hc.gone _ hgone
      simp only [Lines.atStart] at hstart
      split at hstart
      · rename_i hline
        rw [hline]
        rfl
      · cases hstart
    · rfl

theorem Sound.accounted (hc : Sound n c) : Accounted c := by
  obtain ⟨hconsumer, hproducer⟩ := hc.live
  obtain ⟨o, u, ms, hfuses, hbounded, hbacked⟩ := hc.fused
  obtain ⟨hadd, hget, hsize⟩ := c.base.finish_counts o
  have hcapacity := hbounded.size
  have hfree := hbounded.free
  have hstored := hbounded.stored
  rw [hfuses.eq] at hbacked hcapacity hfree hstored
  simp only [State.Backed, State.fullTokens, hadd, hget, hsize] at hbacked hcapacity
  rw [← hconsumer, ← hproducer] at hbacked hfree hstored
  dsimp only at hbacked hcapacity hfree hstored
  constructor <;> omega

/-- Where no thread is between a count and its post, the messages that are still to be read stand
in their slots. -/
theorem Sound.holds (hc : Sound n c) (hsettled : c.base.Settled) :
    c.base.ring.Holds c.base.unread := by
  obtain ⟨o, u, ms, hfuses, hbounded, -⟩ := hc.fused
  obtain ⟨hfinish, hreading⟩ := hsettled.finish o
  have hring := hbounded.ring
  have horder := hbounded.order
  rw [hfuses.eq] at hring horder
  simp only [hfinish, hreading, List.append_nil] at hring horder
  rw [Lines.unread, horder, List.drop_left]
  exact hring

theorem Accounted.deliverable (hc : Accounted c) (hsettled : c.base.Settled) : Deliverable c := by
  have hp : total ProducerPc.unposted c.liveProducer = 0 := total_eq_zero fun i => by
    have hne := hsettled.producer i
    rw [liveProducer]
    split_ifs
    · rfl
    · cases hline : (c.base.producer i).fused <;> simp_all [ProducerPc.unposted]
  have hcons : total ConsumerPc.unposted c.liveConsumer = 0 := total_eq_zero fun j => by
    have hne := hsettled.consumer j
    rw [liveConsumer]
    split_ifs
    · rfl
    · cases hline : (c.base.consumer j).fused <;> simp_all [ConsumerPc.unposted]
  have hmessages := hc.messages
  have hslots := hc.slots
  constructor <;> omega

variable [DecidableEq P] [DecidableEq C]

/-- The threads of `lab5_1.c` at a fixed capacity as the victims of `destroyThread`. -/
def threads : Threads (Lines P C α) (LineAction P C α) (P ⊕ C) where
  next := Lines.next
  thread := Lines.threadOf
  idle _ := true
  atStart := Lines.atStart
  act s t _ := s.cancel t
  cleanup := Lines.cleanup_handler
  locking _ _ := false
  owns := Lines.Inside

def start (n : ℕ) : Threaded P C α := Cancellable.start (.start n)

def next (c : Threaded P C α) (a : ThreadedAction P C α) : Option (Threaded P C α) :=
  Cancellable.next threads c a

omit [DecidableEq P] [DecidableEq C] in
theorem start_sound (n : ℕ) : Sound n (start n : Threaded P C α) where
  fused := ⟨none, .start n, [], Lines.start_fuses n, State.start_bounded n, State.start_backed n⟩
  exiting w hw := by cases hw
  gone w hw := by cases hw

/-- A thread that ends without a full token leaves the fused sections as they are. -/
theorem Sound.cleanup (hc : Sound n c) {w : P ⊕ C} (hexit : c.life w = .exiting)
    (hok : c.Orderly (.cleanup w)) :
    ∃ o u ms, (c.base.cleanup_handler w).Fuses o u ∧ u.Bounded n ms ∧ u.Backed := by
  obtain ⟨o, u, ms, hfuses, hbounded, hbacked⟩ := hc.fused
  have hcancel := hc.exiting w hexit
  have hsemaphores : u.empty = c.base.empty ∧ u.full = c.base.full := by
    rw [hfuses.eq]
    exact ⟨rfl, rfl⟩
  cases w with
  | inl i =>
    have hline : c.base.producer i = .outside := Lines.outside_of_cancel_inl hcancel
    have hpc : u.producer i = .outside := by
      rw [hfuses.eq]
      simp only [hline, ProducerLine.fused]
    have hstay : Lines.Fuses o
        { c.base.setProducer i .outside with empty := c.base.empty, mutex := false }
        { u.setProducer i .outside with empty := c.base.empty, mutex := false } :=
      hfuses.stayProducer (by rw [hline]; rfl) rfl
    refine ⟨o, _, ms, hstay, hbounded.moveProducer hpc ?_ rfl, ?_⟩
    · rw [hsemaphores.1]
    · have htokens : u.ring.countGet + State.fullTokens
          { u.setProducer i .outside with empty := c.base.empty, mutex := false } +
            u.ring.countAdd = u.ring.countGet + u.fullTokens + u.ring.countAdd :=
        State.fullTokens_moveProducer hpc rfl
      exact (Nat.add_right_cancel htokens).trans hbacked
  | inr j =>
    have hline : c.base.consumer j = .outside := Lines.outside_of_cancel_inr hcancel hok
    have hpc : u.consumer j = .outside := by
      rw [hfuses.eq]
      simp only [hline, ConsumerLine.fused]
    have hstay : Lines.Fuses o
        { c.base.setConsumer j .outside with full := c.base.full, mutex := false }
        { u.setConsumer j .outside with full := c.base.full, mutex := false } :=
      hfuses.stayConsumer (by rw [hline]; rfl) rfl
    refine ⟨o, _, ms, hstay, hbounded.moveConsumer hpc rfl ?_, ?_⟩
    · rw [hsemaphores.2]
    · have htokens : u.ring.countGet + State.fullTokens
          { u.setConsumer j .outside with full := c.base.full, mutex := false } +
            u.ring.countAdd = u.ring.countGet + u.fullTokens + u.ring.countAdd :=
        State.fullTokens_moveConsumer hpc (by rw [hsemaphores.2])
      exact (Nat.add_right_cancel htokens).trans hbacked

theorem next_sound (hc : Sound n c) (ha : c.Orderly a) (h : c.next a = some d) : Sound n d := by
  cases a with
  | step a =>
    obtain ⟨halive, hnext, hlife⟩ := Cancellable.next_step h
    have hother (w : P ⊕ C) (hw : c.life w = .exiting ∨ c.life w = .gone) :
        Lines.SamePlace c.base d.base w := by
      refine Lines.next_samePlace hnext fun hthread => ?_
      change c.alive (Lines.threadOf a) = true at halive
      rcases hw with hw | hw <;> simp [hthread, Cancellable.alive, hw] at halive
    obtain ⟨o, u, ms, hfuses, hbounded, hbacked⟩ := hc.fused
    refine ⟨?_, fun w hw => ?_, fun w hw => ?_⟩
    · obtain ⟨o', v, hv, rfl | hstep⟩ := Lines.next_fuses hfuses ha hnext
      · exact ⟨o', v, ms, hv, hbounded, hbacked⟩
      · have hfixed : Lines.fusedAction a ≠ .incremSize ∧ Lines.fusedAction a ≠ .discrSize := by
          cases a <;> simp [Lines.fusedAction]
        obtain ⟨ms', hms'⟩ := (State.next_step hstep).bounded hbounded hfixed
        exact ⟨o', v, ms', hv, hms', State.next_backed _ _ _ hbacked hstep⟩
    · rw [hlife] at hw
      rw [(hother w (.inl hw)).cancel]
      exact hc.exiting w hw
    · rw [hlife] at hw
      rw [(hother w (.inr hw)).atStart]
      exact hc.gone w hw
  | request w =>
    obtain ⟨hrun, hbase, hlife⟩ := Cancellable.next_request h
    refine ⟨hbase ▸ hc.fused, ?_, ?_⟩
    · rw [hbase]
      exact Cancellable.forall_life hlife (by simp) fun v _ => hc.exiting v
    · rw [hbase]
      exact Cancellable.forall_life hlife (by simp) fun v _ => hc.gone v
  | act w =>
    obtain ⟨hreq, hact, hlife⟩ := Cancellable.next_act h
    change c.base.cancel w = some d.base at hact
    have hbase : d.base = c.base := Lines.cancel_eq_some hact
    refine ⟨hbase ▸ hc.fused, ?_, ?_⟩
    · rw [hbase]
      refine Cancellable.forall_life hlife ?_ ?_
      · intro _
        rw [hact]
        rfl
      · intro v _
        exact hc.exiting v
    · rw [hbase]
      exact Cancellable.forall_life hlife (by simp) fun v _ => hc.gone v
  | cleanup w =>
    obtain ⟨hexit, hbase, hlife⟩ := Cancellable.next_cleanup h
    change d.base = c.base.cleanup_handler w at hbase
    refine ⟨hbase ▸ hc.cleanup hexit ha, ?_, ?_⟩
    · rw [hbase]
      refine Cancellable.forall_life hlife (by simp) ?_
      intro v hne hv
      rw [(Lines.cleanup_handler_samePlace c.base hne).cancel]
      exact hc.exiting v hv
    · rw [hbase]
      refine Cancellable.forall_life hlife ?_ ?_
      · intro _
        exact Lines.cleanup_handler_atStart c.base w
      · intro v hne hv
        rw [(Lines.cleanup_handler_samePlace c.base hne).atStart]
        exact hc.gone v hv

/-- As long as no consumer ends with a full token and no thread enters a critical section that is
not empty, every message and every slot stays accounted for; where no thread is between a count and
its post, the plain equations hold and the ring holds all messages that have not been read. -/
theorem run_deliverable (n : ℕ) (as : List (ThreadedAction P C α)) (c : Threaded P C α)
    (horderly : StepsMeet next Orderly (start n) as) (hrun : exec next (start n) as = some c) :
    Accounted c ∧ (c.base.Settled → Deliverable c ∧ c.base.ring.Holds c.base.unread) := by
  have hsound : Sound n c := exec_invariant_of_steps
    (fun _ _ _ hc ha h => next_sound hc ha h) (start_sound n) horderly hrun
  refine ⟨hsound.accounted, fun hsettled => ⟨?_, hsound.holds hsettled⟩⟩
  exact hsound.accounted.deliverable hsettled

/-- A consumer that ends with a full token breaks the account. -/
theorem Accounted.cleanup_breaks (hc : Accounted c) {j : C}
    (hj : (c.base.consumer j).fused.claimed ≠ 0) (h : c.next (.cleanup (.inr j)) = some d) :
    ¬ Accounted d := by
  intro hd
  obtain ⟨hexit, hbase, hlife⟩ := Cancellable.next_cleanup h
  change d.base = c.base.cleanup_handler (.inr j) at hbase
  have hconsumer : d.liveConsumer = Function.update c.liveConsumer j .outside := by
    funext k
    by_cases hk : k = j
    · subst hk
      simp [liveConsumer, hlife]
    · simp [liveConsumer, hlife, hbase, hk, Lines.cleanup_handler, Lines.setConsumer]
  have hproducer : d.liveProducer = c.liveProducer := by
    funext i
    simp [liveProducer, hlife, hbase, Lines.cleanup_handler, Lines.setConsumer]
  have hlive : c.liveConsumer j = (c.base.consumer j).fused := by
    simp [liveConsumer, hexit]
  have hclaimed := total_update ConsumerPc.claimed c.liveConsumer j .outside
  rw [← hconsumer, hlive] at hclaimed
  have hsame : d.base.full = c.base.full ∧ d.base.ring = c.base.ring := by
    rw [hbase]
    exact ⟨rfl, rfl⟩
  have hbefore := hc.messages
  have hafter := hd.messages
  rw [hproducer, hsame.1, hsame.2] at hafter
  have hzero : ConsumerPc.outside.claimed = 0 := rfl
  omega

/-- A message is stored, and a consumer is destroyed before its `sem_wait` on `full`. -/
def destroyWaiting : List (ThreadedAction Unit Unit ℕ) :=
  .step (.produce () 7) :: List.replicate 9 (.step (.producer ())) ++
    [.request (.inr ()), .act (.inr ()), .cleanup (.inr ())]

theorem run_deliverable_waiting :
    ∃ c, exec next (start 10) destroyWaiting = some c ∧ c.base.Settled ∧ Deliverable c := by
  have hsettled : ∀ c, exec next (start 10) destroyWaiting = some c → c.base.Settled := by
    intro c hc
    cases hc
    exact ⟨by decide, by decide⟩
  refine ⟨_, rfl, hsettled _ rfl, ?_⟩
  exact ((run_deliverable 10 destroyWaiting _ (by decide) rfl).2 (hsettled _ rfl)).1

/-- The same with the consumer destroyed between its `sem_wait` and its lock. -/
def destroyHolding : List (ThreadedAction Unit Unit ℕ) :=
  .step (.produce () 7) :: List.replicate 9 (.step (.producer ())) ++
    [.step (.consumer ()), .request (.inr ()), .act (.inr ()), .cleanup (.inr ())]

/-- The message stays in the ring: no token is left for it. -/
theorem holding_destroyed_not_deliverable :
    ¬ ∀ (as : List (ThreadedAction Unit Unit ℕ)) c, exec next (start 10) as = some c →
      c.base.Settled → c.joining = none → Deliverable c := by
  intro hall
  have hdeliverable := hall destroyHolding _ rfl ⟨by decide, by decide⟩ rfl
  exact absurd hdeliverable.messages (by decide)

/-- A waiting consumer is destroyed while one producer has read `countAdd`; a second producer takes
the mutex that the handler has unlocked, and the first one writes its count over the second's. -/
def destroyBetweenProducers : List (ThreadedAction Bool Unit ℕ) :=
  [.step (.produce true 7), .step (.producer true), .step (.producer true), .request (.inr ()),
    .act (.inr ()), .cleanup (.inr ()), .step (.produce false 8)] ++
    List.replicate 9 (.step (.producer false)) ++ List.replicate 7 (.step (.producer true))

/-- No token is lost there, but one `countAdd++` is: the semaphore counts a message more. -/
theorem foreign_unlock_not_deliverable :
    ∃ c, exec next (start 10) destroyBetweenProducers = some c ∧ c.base.Settled ∧
      c.joining = none ∧ c.base.full = 2 ∧ c.base.ring.countAdd = 1 ∧ ¬ Deliverable c := by
  refine ⟨_, rfl, ⟨by decide, by decide⟩, rfl, rfl, rfl, fun h => ?_⟩
  exact absurd h.messages (by decide)

end Threaded

end OsispLabs.Lab5.Semaphore
