import OsispLabs.Lab4.Signals

/-!
# Every run of `lab4Main.c` comes to rest

A slot that a producer takes comes back only from a consumer, and no consumer posts one. With ten
slots to spend, and three turns of the loop at most for each token in a consumer, the processes
together make a bounded number of steps, whatever is typed and whatever signals arrive.
-/
namespace OsispLabs.Lab4
open Lib

/-- One while the producer has copied a message whose token it has not posted. -/
def ProducerPc.unposted : ProducerPc → ℕ
  | .wrapping | .postingFull => 1
  | .unborn | .generating | .waitingEmpty _ | .testing _ | .exited | .waitingMutex _ | .counting _
  | .copyingHeader _ | .copyingData _ | .postingMutex | .printing => 0

/-- The statements that the producer has executed since it took its last slot. -/
def ProducerPc.phase (sigTERMsignalFlag : Bool) : ProducerPc → ℕ
  | .unborn => 0
  | .testing _ => cond sigTERMsignalFlag 11 0
  | .waitingMutex _ => 1
  | .counting _ => 2
  | .copyingHeader _ => 3
  | .copyingData _ => 4
  | .wrapping => 5
  | .postingFull => 6
  | .postingMutex => 7
  | .printing => 8
  | .generating => 9
  | .waitingEmpty _ => 10
  | .exited => 12

/-- The statements that the consumer has executed since it took its last token. -/
def ConsumerPc.phase (sigTERMsignalFlag : Bool) : ConsumerPc → ℕ
  | .testing => cond sigTERMsignalFlag 3 0
  | .allocating => 1
  | .waitingFull => 2
  | .exited => 4
  | .unborn | .waitingMutex | .counting | .copyingHeader | .copyingData _ | .wrapping
  | .postingEmpty | .postingMutex | .printing => 0

/-- Each turn of `workProducer` takes a slot and eleven statements. -/
def Producer.progress (p : Producer) : ℕ := 11 * p.taken + p.pc.phase p.sigTERMsignalFlag

/-- Each turn of `workConsumer` takes a token and three statements. -/
def Consumer.progress (p : Consumer) : ℕ := 3 * p.taken + p.pc.phase p.sigTERMsignalFlag

theorem ProducerPc.phase_le (pc : ProducerPc) (flag : Bool) : pc.phase flag ≤ 12 := by
  cases pc <;> cases flag <;> simp [phase]

theorem ConsumerPc.phase_le (pc : ConsumerPc) (flag : Bool) : pc.phase flag ≤ 4 := by
  cases pc <;> cases flag <;> simp [phase]

theorem Producer.progress_signalled (p : Producer) :
    p.progress ≤ progress p.handlerSIGUSR1 := by
  have hphase : p.pc.phase p.sigTERMsignalFlag ≤ p.pc.phase true := by
    cases p.pc <;> cases p.sigTERMsignalFlag <;> simp [ProducerPc.phase]
  exact Nat.add_le_add_left hphase _

theorem Consumer.progress_signalled (p : Consumer) :
    p.progress ≤ progress p.handlerSIGUSR1 := by
  have hphase : p.pc.phase p.sigTERMsignalFlag ≤ p.pc.phase true := by
    cases p.pc <;> cases p.sigTERMsignalFlag <;> simp [ConsumerPc.phase]
  exact Nat.add_le_add_left hphase _

section Step

variable {q q' : MessageQueue} {p p' : Producer} {move : ProducerMove} {c c' : Consumer}
  {cmove : ConsumerMove}

theorem ProducerStep.progress (h : ProducerStep q p move q' p') (hp : ProducerSound p) :
    p.progress + 1 ≤ p'.progress := by
  unfold Producer.progress
  cases h with
  | eintrEmpty msg hpc hint => simp [hpc, hp.flagged hint, ProducerPc.phase]
  | waitEmpty msg hpc hpos =>
    simp only [hpc, ProducerPc.phase]
    omega
  | exit msg hpc hflag => simp [hpc, hflag, ProducerPc.phase]
  | goOn msg hpc hflag => simp [hpc, hflag, ProducerPc.phase, Process.await]
  | generate msg hpc | eintrMutex msg hpc hint | waitMutex msg hpc hpos | count msg hpc
  | copyHeader msg hpc | copyData msg hpc | wrap hpc | postFull hpc | postMutex hpc | print hpc =>
    simp only [hpc, ProducerPc.phase, Process.await]
    omega

theorem ConsumerStep.progress (h : ConsumerStep q c cmove q' c') (hc : ConsumerLive c)
    (hflagged : c.interrupted = true → c.sigTERMsignalFlag = true) :
    c.progress + 1 ≤ c'.progress := by
  have hposition := hc.position
  unfold Consumer.progress
  cases h with
  | allocate hpc => simp [hpc, ConsumerPc.phase, Process.await]
  | eintrFull hpc hint => simp [hpc, hflagged hint, ConsumerPc.phase]
  | waitFull hpc hpos =>
    simp only [hpc, ConsumerPc.phase]
    omega
  | exit hpc hflag => simp [hpc, hflag, ConsumerPc.phase]
  | goOn hpc hflag => simp [hpc, hflag, ConsumerPc.phase]
  | eintrMutex hpc | waitMutex hpc | count hpc | copyHeader hpc | copyData header hpc | wrap hpc
  | postEmpty hpc | postMutex hpc | print hpc => simp [hpc] at hposition

theorem ConsumerStep.flagged (h : ConsumerStep q c cmove q' c')
    (hc : c.interrupted = true → c.sigTERMsignalFlag = true) :
    c'.interrupted = true → c'.sigTERMsignalFlag = true := by
  cases h with
  | allocate hpc => exact nofun
  | eintrFull hpc | waitFull hpc | exit hpc | goOn hpc | eintrMutex hpc | waitMutex hpc
  | count hpc | copyHeader hpc | copyData header hpc | wrap hpc | postEmpty hpc | postMutex hpc
  | print hpc => exact hc

/-- What a producer has moved, posted and taken. -/
structure ProducerTally (p : Producer) : Prop where
  moved : p.moved = p.posted + p.pc.unposted
  idle : p.pc = .unborn → p.taken = 0

theorem ProducerStep.tally (h : ProducerStep q p move q' p') (hp : ProducerTally p) :
    ProducerTally p' := by
  have hmoved := hp.moved
  cases h with
  | generate msg hpc | eintrEmpty msg hpc | eintrMutex msg hpc | waitEmpty msg hpc | exit msg hpc
  | goOn msg hpc | waitMutex msg hpc | count msg hpc | copyHeader msg hpc | copyData msg hpc
  | wrap hpc | postFull hpc | postMutex hpc | print hpc =>
    rw [hpc] at hmoved
    constructor
    · simp only [Process.await, hmoved, ProducerPc.unposted]
    · intro hidle
      simp [Process.await] at hidle

/-- A producer has moved no more messages than it has taken slots, and fewer while it carries one
to the ring. -/
theorem ProducerTally.moved_le (hp : ProducerTally p) (hsound : ProducerSound p) :
    p.moved ≤ p.taken := by
  have hmoved := hp.moved
  have haccount := hsound.account
  unfold ProducerAccount at haccount
  cases hpc : p.pc <;> simp only [hpc, ProducerPc.unposted] at hmoved haccount <;> omega

theorem ProducerStep.empty (h : ProducerStep q p move q' p') :
    q'.empty + p'.taken = q.empty + p.taken := by
  cases h with
  | waitEmpty msg hpc hpos =>
    simp only
    omega
  | generate | eintrEmpty | eintrMutex | exit | goOn | waitMutex | count | copyHeader | copyData
  | wrap | postFull | postMutex | print => rfl

theorem ProducerStep.added (h : ProducerStep q p move q' p') :
    q'.added.length + p.moved = q.added.length + p'.moved := by
  cases h with
  | copyData msg hpc =>
    simp only [MessageQueue.addData, List.length_append, List.length_singleton]
    omega
  | generate | eintrEmpty | eintrMutex | waitEmpty | exit | goOn | waitMutex | count | copyHeader
  | wrap | postFull | postMutex | print => rfl

theorem ConsumerStep.added (h : ConsumerStep q c cmove q' c') :
    q'.added = q.added ∧ q'.tail = q.tail := by
  cases h <;> exact ⟨rfl, rfl⟩

end Step

variable {P C : Type*} [DecidableEq P] [DecidableEq C] [Fintype P] [Fintype C]

/-- A command of main, not a step of a child process. -/
def Action.isCommand : Action P C → Bool
  | .producer .. | .consumer .. => false
  | .createProducer _ | .destroyProducer | .createConsumer _ | .destroyConsumer => true

namespace State

variable {s t : State P C} {a : Action P C}

/-- The statements that the processes have executed. -/
def progress (s : State P C) : ℕ :=
  total Producer.progress s.producer + total Consumer.progress s.consumer

omit [Fintype C] in
/-- What the producers have done covers a quantity of the queue that only they raise. -/
theorem Step.covered {f : MessageQueue → ℕ} {w : Producer → ℕ}
    (hproducer : ∀ i m q p, a = .producer i m → ProducerStep s.queue (s.producer i) m q p →
      f q + w (s.producer i) ≤ f s.queue + w p)
    (hconsumer : ∀ j m q p, a = .consumer j m → ConsumerStep s.queue (s.consumer j) m q p →
      f q ≤ f s.queue)
    (hw : ∀ p, w p.handlerSIGUSR1 = w p)
    (hwborn : ∀ i, (s.producer i).pc = .unborn → w (s.producer i) ≤ w (.born .generating))
    (h : Step s a t) (hs : f s.queue ≤ total w s.producer) :
    f t.queue ≤ total w t.producer := by
  cases h with
  | @producer i move q p hwork =>
    have hlocal := hproducer i move q p rfl hwork
    have hsum := total_update w s.producer i p
    simp only [setProducer]
    omega
  | @consumer j move q p hwork => exact (hconsumer j move q p rfl hwork).trans hs
  | forkProducer i hpc =>
    have hlocal := hwborn i hpc
    have hsum := total_update w s.producer i (.born .generating)
    simp only [setProducer]
    omega
  | killProducer i rest hpids =>
    have hsum := total_update w s.producer i (s.producer i).handlerSIGUSR1
    rw [hw] at hsum
    simp only [setProducer]
    omega
  | killAllProducer rest hpids | killAllConsumer rest hpids =>
    exact hs.trans_eq (total_congr fun i => (hw _).symm)
  | forkConsumer j hpc => exact hs
  | killConsumer j rest hpids => exact hs
  | forkProducerFails => exact hs
  | forkConsumerFails => exact hs
  | noProducer hpids => exact hs
  | noConsumer hpids => exact hs

/-- The slots that are not free have been taken by producers, once and for all. -/
structure Spent (s : State P C) : Prop where
  lawful : s.Lawful
  flagged : ∀ j, (s.consumer j).interrupted = true → (s.consumer j).sigTERMsignalFlag = true
  tally : ∀ i, ProducerTally (s.producer i)
  empty : s.queue.empty + total Process.taken s.producer = MessageQueue.bufferSize
  added : s.queue.added.length ≤ total Process.moved s.producer

omit [DecidableEq P] [DecidableEq C] in
theorem start_spent : (start : State P C).Spent where
  lawful := start_lawful
  flagged _ := nofun
  tally _ := ⟨rfl, fun _ => rfl⟩
  empty := by
    rw [total_eq_zero (w := Process.taken) fun _ => rfl]
    rfl
  added := Nat.zero_le _

omit [DecidableEq P] [DecidableEq C] in
theorem Spent.unborn (hs : s.Spent) {i : P} (hpc : (s.producer i).pc = .unborn) :
    (s.producer i).taken = 0 ∧ (s.producer i).moved = 0 := by
  have hidle := (hs.tally i).idle hpc
  have hmoved := (hs.tally i).moved_le (hs.lawful.sound.producer i)
  omega

theorem next_spent (s : State P C) (a : Action P C) (t : State P C) (hs : s.Spent)
    (h : s.next a = some t) : t.Spent := by
  have hstep := next_step h
  refine ⟨next_lawful s a t hs.lawful h, ?_, ?_, ?_, ?_⟩
  · exact hstep.forall_consumer nofun (fun _ p _ _ => rfl)
      (fun j m q p _ hwork hp => hwork.flagged hp) hs.flagged
  · exact hstep.forall_producer ⟨rfl, nofun⟩ (fun _ p hp => ⟨hp.moved, hp.idle⟩)
      (fun i m q p _ hwork hp => hwork.tally hp) hs.tally
  · have hsum := hstep.conserved (f := MessageQueue.empty) (w := Process.taken) (v := fun _ => 0)
      (fun i m q p _ hwork => hwork.empty)
      (fun j m q p _ hwork => (hwork.live (hs.lawful.sound.consumer j)).2.2)
      (fun _ => rfl) (fun _ => rfl) (fun i hpc => (hs.unborn hpc).1.symm) (fun _ _ => rfl)
    have hzero : ∀ u : State P C, total (fun _ => 0) u.consumer = 0 :=
      fun u => total_eq_zero fun _ => rfl
    rw [hzero, hzero] at hsum
    exact hsum.trans hs.empty
  · exact hstep.covered (f := fun q => q.added.length) (w := Process.moved)
      (fun i m q p _ hwork => hwork.added.le)
      (fun j m q p _ hwork => by rw [hwork.added.1])
      (fun _ => rfl) (fun i hpc => (hs.unborn hpc).2.le) hs.added

omit [DecidableEq P] [DecidableEq C] in
theorem Spent.taken_le (hs : s.Spent) :
    total Process.taken s.producer ≤ MessageQueue.bufferSize ∧
      total Process.taken s.consumer ≤ MessageQueue.bufferSize := by
  have hempty := hs.empty
  have hacc := hs.lawful.accounted
  rw [Accounted] at hacc
  omega

omit [DecidableEq P] [DecidableEq C] in
theorem Spent.added_length_le (hs : s.Spent) : s.queue.added.length ≤ MessageQueue.bufferSize := by
  have hmoved : total Process.moved s.producer ≤ total Process.taken s.producer :=
    total_le_total fun i => (hs.tally i).moved_le (hs.lawful.sound.producer i)
  have hadded := hs.added
  have htaken := hs.taken_le.1
  omega

/-- Each statement of a process is progress, and no command undoes any. -/
theorem Step.progress (h : Step s a t) (hs : s.Spent) :
    s.progress + 1 ≤ t.progress + if a.isCommand then 1 else 0 := by
  cases h with
  | @producer i move q p hwork =>
    have hlocal := hwork.progress (hs.lawful.sound.producer i)
    have hsum := total_update Producer.progress s.producer i p
    simp only [State.progress, setProducer, Action.isCommand, Bool.false_eq_true, if_false]
    omega
  | @consumer j move q p hwork =>
    have hlocal := hwork.progress (hs.lawful.sound.consumer j) (hs.flagged j)
    have hsum := total_update Consumer.progress s.consumer j p
    simp only [State.progress, setConsumer, Action.isCommand, Bool.false_eq_true, if_false]
    omega
  | forkProducer i hpc =>
    have hlocal : Producer.progress (s.producer i) = 0 := by
      rw [Producer.progress, hpc, (hs.unborn hpc).1]
      rfl
    have hsum := total_update Producer.progress s.producer i (.born .generating)
    simp only [State.progress, setProducer, Action.isCommand, if_true]
    omega
  | forkConsumer j hpc =>
    have hlocal : Consumer.progress (s.consumer j) = 0 := by
      rw [Consumer.progress, hpc, (hs.lawful.sound.consumer j).idle hpc]
      rfl
    have hsum := total_update Consumer.progress s.consumer j (.born .allocating)
    simp only [State.progress, setConsumer, Action.isCommand, if_true]
    omega
  | killProducer i rest hpids =>
    have hlocal := (s.producer i).progress_signalled
    have hsum := total_update Producer.progress s.producer i (s.producer i).handlerSIGUSR1
    simp only [State.progress, setProducer, Action.isCommand, if_true]
    omega
  | killConsumer j rest hpids =>
    have hlocal := (s.consumer j).progress_signalled
    have hsum := total_update Consumer.progress s.consumer j (s.consumer j).handlerSIGUSR1
    simp only [State.progress, setConsumer, Action.isCommand, if_true]
    omega
  | killAllProducer rest hpids | killAllConsumer rest hpids =>
    have hp : total Producer.progress s.producer ≤ total Producer.progress s.killAll.producer :=
      total_le_total fun i => (s.producer i).progress_signalled
    have hc : total Consumer.progress s.consumer ≤ total Consumer.progress s.killAll.consumer :=
      total_le_total fun j => (s.consumer j).progress_signalled
    exact Nat.add_le_add_right (Nat.add_le_add hp hc) 1
  | forkProducerFails => exact Nat.le_refl _
  | forkConsumerFails => exact Nat.le_refl _
  | noProducer hpids => exact Nat.le_refl _
  | noConsumer hpids => exact Nat.le_refl _

omit [DecidableEq P] [DecidableEq C] in
theorem Spent.progress_le (hs : s.Spent) :
    s.progress ≤ 140 + 12 * Fintype.card P + 4 * Fintype.card C := by
  have hp := total_le_linear (v := Producer.progress) (w := Process.taken) (k := 11) (l := 12)
    (fun p => Nat.add_le_add_left (p.pc.phase_le _) _) s.producer
  have hc := total_le_linear (v := Consumer.progress) (w := Process.taken) (k := 3) (l := 4)
    (fun p => Nat.add_le_add_left (p.pc.phase_le _) _) s.consumer
  have htaken := hs.taken_le
  simp only [MessageQueue.bufferSize] at htaken
  rw [State.progress]
  omega

/-- Whatever commands and signals come, the processes together make a bounded number of steps. In
them they put at most ten messages into the queue and take none out. -/
theorem run_comesToRest (as : List (Action P C)) (s : State P C)
    (hrun : exec next start as = some s) :
    as.length ≤ as.countP Action.isCommand + 140 + 12 * Fintype.card P + 4 * Fintype.card C ∧
      s.queue.added.length ≤ MessageQueue.bufferSize ∧ s.queue.read = [] := by
  have hs := exec_invariant next_spent start_spent hrun
  have hok : StepsMeet next (fun (_ : State P C) _ => True) start as :=
    stepsMeet_of_forall (fun _ _ _ => trivial) _
  have hlength := exec_length_le_potential (m := progress) 1 Action.isCommand
    (fun s a t hs _ h => next_spent s a t hs h) (fun s a t hs _ h => (next_step h).progress hs)
    start_spent hok hrun
  have hle := hs.progress_le
  refine ⟨?_, hs.added_length_le, hs.lawful.sound.read⟩
  omega

/-- A producer adds a message and a consumer keeps the token for it. -/
theorem run_comesToRest_kept :
    ∃ s : State Unit Unit, exec next start (.createProducer (some ()) :: turn () 10 ++
        .createConsumer (some ()) :: List.replicate 4 (.consumer () .statement)) = some s ∧
      17 ≤ 2 + 140 + 12 * 1 + 4 * 1 ∧ s.queue.added.length ≤ 10 ∧ s.queue.read = [] :=
  have hrun : exec next start (.createProducer (some ()) :: turn () 10 ++
      .createConsumer (some ()) :: List.replicate 4 (.consumer () .statement)) = some _ := rfl
  ⟨_, hrun, run_comesToRest (P := Unit) (C := Unit) _ _ hrun⟩

section Stuck

/-- No process can make a step, so that only a command can change anything. -/
def Stuck (s : State P C) : Prop := ∀ a : Action P C, a.isCommand = false → s.next a = none

/-- Every process that has been created and has not exited waits for a token, undisturbed, and
there is none. -/
structure AllWaiting (s : State P C) : Prop where
  producer : ∀ i, (s.producer i).pc = .unborn ∨ (s.producer i).pc = .exited ∨
    (∃ msg, (s.producer i).pc = .waitingEmpty msg) ∧ (s.producer i).interrupted = false ∧
      s.queue.empty = 0
  consumer : ∀ j, (s.consumer j).pc = .unborn ∨ (s.consumer j).pc = .exited ∨
    (s.consumer j).pc = .waitingFull ∧ (s.consumer j).interrupted = false ∧ s.queue.full = 0

theorem workProducer_stuck {q : MessageQueue} {p : Producer}
    (h : ∀ move, workProducer q p move = none) (hmutex : q.mutex = 0 → p.pc.awaitsMutex = false) :
    p.pc = .unborn ∨ p.pc = .exited ∨
      (∃ msg, p.pc = .waitingEmpty msg) ∧ p.interrupted = false ∧ q.empty = 0 := by
  have hstatement := h .statement
  have heintr := h .eintr
  have hgenerate := h (.generateMessage shortMessage)
  cases hpc : p.pc with
  | unborn => exact .inl rfl
  | exited => exact .inr (.inl rfl)
  | generating => simp [workProducer, hpc] at hgenerate
  | waitingEmpty msg =>
    simp only [workProducer, hpc, ite_eq_left_iff, reduceCtorEq, imp_false,
      Decidable.not_not] at hstatement
    simp only [workProducer, hpc, ite_eq_right_iff, reduceCtorEq, imp_false,
      Bool.not_eq_true] at heintr
    exact .inr (.inr ⟨⟨msg, rfl⟩, heintr, hstatement⟩)
  | testing msg =>
    simp only [workProducer, hpc] at hstatement
    split at hstatement <;> cases hstatement
  | waitingMutex msg =>
    simp only [workProducer, hpc, ite_eq_left_iff, reduceCtorEq, imp_false,
      Decidable.not_not] at hstatement
    have hnot := hmutex hstatement
    simp [hpc, ProducerPc.awaitsMutex] at hnot
  | counting msg | copyingHeader msg | copyingData msg => simp [workProducer, hpc] at hstatement
  | wrapping | postingFull | postingMutex | printing => simp [workProducer, hpc] at hstatement

theorem workConsumer_stuck {q : MessageQueue} {p : Consumer}
    (h : ∀ move, workConsumer q p move = none) (hp : ConsumerLive p) :
    p.pc = .unborn ∨ p.pc = .exited ∨
      p.pc = .waitingFull ∧ p.interrupted = false ∧ q.full = 0 := by
  have hstatement := h .statement
  have heintr := h .eintr
  rcases hp.position with hpc | hpc | hpc | hpc | hpc
  · exact .inl hpc
  · simp [workConsumer, hpc] at hstatement
  · simp only [workConsumer, hpc, ite_eq_left_iff, reduceCtorEq, imp_false,
      Decidable.not_not] at hstatement
    simp only [workConsumer, hpc, ite_eq_right_iff, reduceCtorEq, imp_false,
      Bool.not_eq_true] at heintr
    exact .inr (.inr ⟨hpc, heintr, hstatement⟩)
  · simp only [workConsumer, hpc] at hstatement
    split at hstatement <;> cases hstatement
  · exact .inr (.inl hpc)

omit [Fintype P] [Fintype C] in
theorem Stuck.workProducer (h : s.Stuck) (i : P) (move : ProducerMove) :
    workProducer s.queue (s.producer i) move = none :=
  Option.map_eq_none_iff.mp (h (.producer i move) rfl)

omit [Fintype P] [Fintype C] in
theorem Stuck.workConsumer (h : s.Stuck) (j : C) (move : ConsumerMove) :
    workConsumer s.queue (s.consumer j) move = none :=
  Option.map_eq_none_iff.mp (h (.consumer j move) rfl)

/-- A process inside its critical section can go on. -/
theorem Stuck.inside_eq_zero (h : s.Stuck) (hs : s.Sound) : s.inside = 0 := by
  have hproducer : ∀ i, (s.producer i).pc.owns = 0 := by
    intro i
    have hstatement := h.workProducer i .statement
    cases hpc : (s.producer i).pc with
    | counting msg | copyingHeader msg | copyingData msg =>
      simp [Lab4.workProducer, hpc] at hstatement
    | wrapping | postingFull | postingMutex => simp [Lab4.workProducer, hpc] at hstatement
    | unborn | generating | exited | printing => rfl
    | waitingEmpty msg | testing msg | waitingMutex msg => rfl
  have hconsumer : ∀ j, (s.consumer j).pc.owns = 0 := by
    intro j
    rcases (hs.consumer j).position with hpc | hpc | hpc | hpc | hpc <;> rw [hpc] <;> rfl
  have hp : total (fun p : Producer => p.pc.owns) s.producer = 0 := total_eq_zero hproducer
  have hc : total (fun p : Consumer => p.pc.owns) s.consumer = 0 := total_eq_zero hconsumer
  rw [State.inside, hp, hc]

omit [Fintype P] [Fintype C] in
theorem AllWaiting.stuck (h : s.AllWaiting) : s.Stuck := by
  intro a ha
  cases a with
  | producer i move =>
    refine Option.map_eq_none_iff.mpr ?_
    rcases h.producer i with hpc | hpc | ⟨⟨msg, hpc⟩, hint, hempty⟩
    all_goals cases move <;> simp [Lab4.workProducer, *]
  | consumer j move =>
    refine Option.map_eq_none_iff.mpr ?_
    rcases h.consumer j with hpc | hpc | ⟨hpc, hint, hfull⟩
    all_goals cases move <;> simp [Lab4.workConsumer, *]
  | createProducer child | createConsumer child => cases ha
  | destroyProducer | destroyConsumer => cases ha

/-- The mutex is never what holds a process up for good, even after an interrupted wait has let
two processes in: the processes are stuck exactly when all of them wait for a token. -/
theorem run_stuck_iff_allWaiting (as : List (Action P C)) (s : State P C)
    (hrun : exec next start as = some s) : s.Stuck ↔ s.AllWaiting := by
  have hlawful := exec_invariant next_lawful start_lawful hrun
  have hinside : 1 ≤ s.queue.mutex + s.inside :=
    exec_invariant (I := fun s : State P C => 1 ≤ s.queue.mutex + s.inside)
      (fun s a t hs h => hs.trans (next_step h).inside_le) start_inside.ge hrun
  refine ⟨fun h => ⟨fun i => ?_, fun j => ?_⟩, AllWaiting.stuck⟩
  · refine workProducer_stuck (h.workProducer i) fun hmutex => ?_
    rw [hmutex, h.inside_eq_zero hlawful.sound] at hinside
    omega
  · exact workConsumer_stuck (h.workConsumer j) (hlawful.sound.consumer j)

/-- A consumer at the empty queue, and a producer destroyed at its wait for a slot. -/
theorem run_stuck_iff_allWaiting_interrupted :
    ∃ s : State Unit Unit, exec next start (.createConsumer (some ()) ::
        .consumer () .statement :: .createProducer (some ()) :: turn () 0 ++
        [.destroyProducer, .producer () .eintr, .producer () .statement]) = some s ∧ s.Stuck :=
  have hrun : exec next start (.createConsumer (some ()) :: .consumer () .statement ::
      .createProducer (some ()) :: turn () 0 ++
      [.destroyProducer, .producer () .eintr, .producer () .statement]) = some _ := rfl
  ⟨_, hrun, (run_stuck_iff_allWaiting (P := Unit) (C := Unit) _ _ hrun).mpr
    ⟨fun _ => .inr (.inl rfl), fun _ => .inr (.inr ⟨rfl, rfl, rfl⟩)⟩⟩

end Stuck

end State

end OsispLabs.Lab4
