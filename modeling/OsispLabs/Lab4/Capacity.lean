import OsispLabs.Lab4.Tables

/-!
# The capacity of the queue when producers are destroyed

The flag is tested after the `sem_wait` on `empty` has returned. When the wait was interrupted
the producer exits without a token; when it succeeded, the exit takes the token along. So does that
of a producer that was forked with the flag set, which a store behind the table of main can do.
-/
namespace OsispLabs.Lab4
open Lib

/-- The unposted token of a process that has not exited. -/
def Producer.kept (p : Producer) : ℕ := if p.pc = .exited then 0 else p.held

/-- The unposted token of a process that has exited. -/
def Producer.lost (p : Producer) : ℕ := if p.pc = .exited then p.held else 0

theorem Producer.kept_add_lost (p : Producer) : p.kept + p.lost = p.held := by
  unfold kept lost
  split <;> omega

def ProducerPc.isTesting : ProducerPc → Bool
  | .testing _ => true
  | .unborn | .generating | .waitingEmpty _ | .exited | .waitingMutex _ | .counting _
  | .copyingHeader _ | .copyingData _ | .wrapping | .postingFull | .postingMutex
  | .printing => false

variable {P C : Type*} [DecidableEq P] [DecidableEq C] [Fintype P] [Fintype C]

namespace State

/-- What is in the semaphores and with the surviving producers is the whole queue. -/
def FullCapacity (s : State P C) : Prop :=
  s.queue.empty + s.queue.full + total Producer.kept s.producer = MessageQueue.bufferSize

instance (s : State P C) : Decidable s.FullCapacity := inferInstanceAs (Decidable (_ = _))

/-- The producer does not exit with a token. -/
def GivesBack (s : State P C) : Action P C → Prop
  | .producer i .statement =>
    (s.producer i).pc.isTesting = true → (s.producer i).sigTERMsignalFlag = true →
      (s.producer i).held = 0
  | .producer _ (.generateMessage _) | .producer _ .eintr | .consumer _ _ | .createProducer _
  | .createConsumer _ | .destroyProducer | .destroyConsumer => True

/-- No consumer has been created. -/
def ProducersOnly (s : State P C) : Prop := ∀ j, (s.consumer j).pc = .unborn

/-- The laws of a run of producers. -/
structure Producing (s : State P C) : Prop where
  lawful : s.Lawful
  only : s.ProducersOnly

variable {s t : State P C} {a : Action P C}

omit [Fintype P] [Fintype C] in
theorem Step.producersOnly (h : Step s a t) (hok : ∀ child, a ≠ .createConsumer child)
    (hs : s.ProducersOnly) : t.ProducersOnly := by
  intro j
  rcases h.consumer_cases j with heq | ⟨_, heq⟩ | ⟨ha, _⟩ | ⟨m, _, hwork⟩
  · rw [heq]
    exact hs j
  · rw [heq]
    exact hs j
  · exact absurd ha (hok _)
  · have hpc := hs j
    generalize t.queue = q, t.consumer j = p at hwork ⊢
    cases hwork <;> simp_all

omit [DecidableEq P] [DecidableEq C] in
theorem Producing.fullCapacity_iff (hs : s.Producing) :
    s.FullCapacity ↔ ∀ i, (s.producer i).lost = 0 := by
  have htaken : total Process.taken s.consumer = 0 :=
    total_eq_zero fun j => (hs.lawful.sound.consumer j).idle (hs.only j)
  have hheld : total Process.held s.producer =
      total Producer.kept s.producer + total Producer.lost s.producer := by
    rw [← total_add]
    exact total_congr fun i => ((s.producer i).kept_add_lost).symm
  have hacc := hs.lawful.accounted
  rw [Accounted, htaken, hheld] at hacc
  constructor
  · intro hfull i
    have hle := apply_le_total Producer.lost s.producer i
    rw [FullCapacity] at hfull
    omega
  · intro hlost
    have hzero : total Producer.lost s.producer = 0 := total_eq_zero hlost
    rw [FullCapacity]
    omega

omit [Fintype P] [Fintype C] in
/-- A step that gives back its token loses nothing. -/
theorem Step.lost (h : Step s a t) (hok : s.GivesBack a) (hs : ∀ i, (s.producer i).lost = 0)
    (i : P) : (t.producer i).lost = 0 := by
  refine h.forall_producer (I := fun p => p.lost = 0) rfl (fun _ p hp => hp) ?_ hs i
  rintro i m q p rfl hwork hlost
  cases hwork with
  | exit msg hpc hflag =>
    have hheld := hok (by rw [hpc]; rfl) hflag
    rw [Producer.lost, if_pos rfl]
    exact hheld
  | generate | eintrEmpty | eintrMutex | waitEmpty | goOn | waitMutex | count | copyHeader
  | copyData | wrap | postFull | postMutex | print => exact if_neg nofun

omit [Fintype P] [Fintype C] in
/-- A step that does not give back its token loses it. -/
theorem Step.loses (h : Step s a t) (hnot : ¬ s.GivesBack a) : ∃ i, 0 < (t.producer i).lost := by
  cases a with
  | producer i m =>
    cases m with
    | generateMessage msg => exact absurd trivial hnot
    | eintr => exact absurd trivial hnot
    | statement =>
      simp only [GivesBack, Classical.not_imp] at hnot
      obtain ⟨htest, hflag, hheld⟩ := hnot
      refine ⟨i, ?_⟩
      cases h with
      | @producer _ _ q p hwork =>
        have hself : (Function.update s.producer i p) i = p := Function.update_self ..
        simp only [setProducer, hself]
        cases hwork with
        | exit msg hpc hexit =>
          rw [Producer.lost, if_pos rfl]
          exact Nat.pos_of_ne_zero hheld
        | goOn msg hpc hgo => simp [hgo] at hflag
        | waitEmpty msg hpc | waitMutex msg hpc | count msg hpc | copyHeader msg hpc
        | copyData msg hpc | wrap hpc | postFull hpc | postMutex hpc | print hpc =>
          simp [hpc, ProducerPc.isTesting] at htest
  | consumer j m => exact absurd trivial hnot
  | createProducer child => exact absurd trivial hnot
  | createConsumer child => exact absurd trivial hnot
  | destroyProducer => exact absurd trivial hnot
  | destroyConsumer => exact absurd trivial hnot

omit [Fintype P] [Fintype C] in
/-- A lost token stays lost. -/
theorem Step.stays_lost (h : Step s a t) {i : P} (hi : 0 < (s.producer i).lost) :
    0 < (t.producer i).lost := by
  have hpc : (s.producer i).pc = .exited := by
    by_contra hne
    simp [Producer.lost, hne] at hi
  rcases h.producer_cases i with heq | ⟨_, heq⟩ | ⟨_, hborn, _⟩ | ⟨m, _, hwork⟩
  · rw [heq]
    exact hi
  · rw [heq]
    exact hi
  · simp [hpc] at hborn
  · generalize t.queue = q, t.producer i = p at hwork ⊢
    cases hwork <;> simp_all

end State

omit [DecidableEq P] [DecidableEq C] [Fintype P] [Fintype C] in
/-- A child just forked holds nothing, whatever its flag. -/
theorem SameSystem.lost {s t : State P C} (h : SameSystem s t) (i : P) :
    (t.producer i).lost = (s.producer i).lost := by
  rcases h.producer i with heq | ⟨-, flag, heq⟩ <;> rw [heq]
  rfl

omit [DecidableEq P] [DecidableEq C] in
theorem SameSystem.producing {s t : State P C} (h : SameSystem s t) (hs : s.Producing) :
    t.Producing := by
  refine ⟨h.lawful hs.lawful, fun j => ?_⟩
  rcases h.consumer j with heq | ⟨-, flag, heq⟩ <;> rw [heq] <;> exact hs.only j

namespace Main

/-- No producer exits with a token in the step. -/
def GivesBack (m : Main P C) (b : MainAction P C) : Prop :=
  ∀ a ∈ b.step, m.state.GivesBack a

/-- The step creates no consumer. -/
def ProducersOnly (b : MainAction P C) : Prop := ∀ a ∈ b.step, ∀ child, a ≠ .createConsumer child

variable {m n : Main P C}

omit [DecidableEq P] [DecidableEq C] in
theorem start_producing : (start : Main P C).state.Producing := ⟨State.start_lawful, fun _ => rfl⟩

theorem next_producing {b : MainAction P C} (hm : m.state.Producing) (hok : ProducersOnly b)
    (h : m.next b = some n) : n.state.Producing := by
  cases hb : b.step with
  | none =>
    rw [next_frame hb h]
    exact hm
  | some a =>
    obtain ⟨s, hs, hsame⟩ := next_step hb h
    have hlawful := State.next_lawful m.state a s hm.lawful hs
    exact hsame.producing ⟨hlawful, (State.next_step hs).producersOnly (hok a hb) hm.only⟩

/-- A token that a producer takes along when it exits is what the queue loses. -/
theorem fullCapacity_decides :
    Decides (next (P := P) (C := C)) (fun _ => ProducersOnly) GivesBack (fun m => m.state.Producing)
      (fun m => ∀ i, (m.state.producer i).lost = 0) (fun m => ∃ i, 0 < (m.state.producer i).lost)
      (fun m => m.state.FullCapacity) where
  step := next_producing
  keep {m b n} _ hlost _ hok h := by
    cases hb : b.step with
    | none =>
      rw [next_frame hb h]
      exact hlost
    | some a =>
      obtain ⟨s, hs, hsame⟩ := next_step hb h
      intro i
      rw [hsame.lost]
      exact (State.next_step hs).lost (hok a hb) hlost i
  spoil {m b n} _ _ hnot h := by
    simp only [GivesBack, not_forall] at hnot
    obtain ⟨a, hb, hnot⟩ := hnot
    obtain ⟨s, hs, hsame⟩ := next_step hb h
    obtain ⟨i, hi⟩ := (State.next_step hs).loses hnot
    exact ⟨i, by rwa [hsame.lost]⟩
  last {m b n} _ _ hbad h := by
    obtain ⟨i, hi⟩ := hbad
    refine ⟨i, ?_⟩
    cases hb : b.step with
    | none => rwa [next_frame hb h]
    | some a =>
      obtain ⟨s, hs, hsame⟩ := next_step hb h
      rw [hsame.lost]
      exact (State.next_step hs).stays_lost hi
  good hs hlost := hs.fullCapacity_iff.mpr hlost
  bad := by
    rintro _ hs ⟨i, hi⟩ hfull
    have hzero := hs.fullCapacity_iff.mp hfull i
    omega

/-- In a run of producers, also one that overruns the table of main, the queue keeps its capacity
exactly as long as no producer exits with a token. -/
theorem run_fullCapacity_iff {bs : List (MainAction P C)} (honly : ∀ b ∈ bs, ProducersOnly b)
    (hrun : exec next start bs = some m) :
    m.state.FullCapacity ↔ StepsMeet next GivesBack (start : Main P C) bs := by
  have hperm : StepsMeet next (fun _ => ProducersOnly) (start : Main P C) bs :=
    stepsMeet_of_forall (fun b hb _ => honly b hb) _
  exact fullCapacity_decides.iff_stepsMeet start_producing (fun _ => rfl) hperm hrun

instance (s : State P C) : ∀ a, Decidable (s.GivesBack a)
  | .producer _ .statement => inferInstanceAs (Decidable (_ → _ → _ = 0))
  | .producer _ (.generateMessage _) | .producer _ .eintr | .consumer _ _ | .createProducer _
  | .createConsumer _ | .destroyProducer | .destroyConsumer => isTrue trivial

instance (m : Main P C) (b : MainAction P C) : Decidable (m.GivesBack b) :=
  inferInstanceAs (Decidable (∀ a ∈ b.step, m.state.GivesBack a))

/-- A producer destroyed at its wait for a slot gives nothing away. -/
theorem run_fullCapacity_interrupted :
    let bs : List (Action Unit Unit) := .createProducer (some ()) :: turn () 0 ++
      [.destroyProducer, .producer () .eintr, .producer () .statement]
    ∃ m, exec next start (bs.map .inside) = some m ∧ m.state.FullCapacity := by
  intro bs
  have hrun : exec next start (bs.map .inside) = some _ := rfl
  exact ⟨_, hrun, (run_fullCapacity_iff (by simp [bs, turn, ProducersOnly, MainAction.step])
    hrun).mpr (by decide)⟩

/-- A producer destroyed before its wait takes a slot with it. -/
theorem destroyed_not_fullCapacity :
    ¬ ∀ (bs : List (MainAction Unit Unit)) (m : Main Unit Unit),
      (∀ b ∈ bs, ProducersOnly b) → exec next start bs = some m → m.state.FullCapacity := by
  intro hall
  have h := hall (List.map .inside (.createProducer (some ()) :: .destroyProducer :: turn () 2)) _
    (by simp [turn, ProducersOnly, MainAction.step]) rfl
  exact absurd h (by decide)

/-- `p+` number `k + 1`, where entry 44 of the table is `sigTERMsignalFlag`. -/
def createdPast (k : Fin 46) : MainAction (Fin 46) Unit :=
  if k.val < MAX_CHILD then .inside (.createProducer (some k))
  else .overrun (.createProducer (some k))
    ⟨decide (44 ≤ k.val), ((List.finRange 46).take (k.val + 1)).reverse.map some, []⟩

/-- 46 times `p+`, and the first turn of the last producer. -/
def overrunning : List (MainAction (Fin 46) Unit) :=
  (List.finRange 46).map createdPast ++ (turn 45 2).map .inside

/-- Without any `p-` the last of the 46 producers exits with its slot. -/
theorem overrunning_not_fullCapacity :
    ∃ m, exec next start overrunning = some m ∧ ¬ m.state.FullCapacity := by
  have hend : (exec next start overrunning).map (fun m =>
      m.state.queue.empty + m.state.queue.full + total Producer.kept m.state.producer) =
        some 9 := by
    decide +kernel
  obtain ⟨m, hrun, hsum⟩ := Option.map_eq_some_iff.mp hend
  refine ⟨m, hrun, fun hfull => ?_⟩
  rw [State.FullCapacity, hsum] at hfull
  exact absurd hfull (by decide)

end Main

end OsispLabs.Lab4
