import OsispLabs.Lab4.Processes

/-!
# Accounts of the processes

Rules that lift a law of one process to the whole system, and what every process of a reachable
state satisfies: how its position bounds its unposted tokens, and that no consumer is ever past
its `exit(0)`.
-/
namespace OsispLabs.Lab4
open Lib

variable {Pc : Type}

namespace Process

/-- One while the process has taken a token whose counterpart it has not posted. -/
def held (p : Process Pc) : ℕ := if p.posted < p.taken then 1 else 0

@[simp] theorem held_born (pc : Pc) : (born pc).held = 0 := rfl

theorem held_of_eq {p : Process Pc} (h : p.taken = p.posted) : p.held = 0 := by
  rw [held, if_neg (by omega)]

theorem held_of_lt {p : Process Pc} (h : p.posted < p.taken) : p.held = 1 := by
  rw [held, if_pos h]

end Process

/-- The tokens of a producer at each position. At the flag test an interrupted wait has left it
without one, and then the flag is set. -/
def ProducerAccount (p : Producer) : Prop :=
  match p.pc with
  | .unborn | .generating | .waitingEmpty _ | .postingMutex | .printing => p.taken = p.posted
  | .testing _ => p.taken = p.posted + 1 ∨ p.sigTERMsignalFlag = true ∧ p.taken = p.posted
  | .exited => p.taken = p.posted ∨ p.taken = p.posted + 1
  | .waitingMutex _ | .counting _ | .copyingHeader _ | .copyingData _ | .wrapping
  | .postingFull => p.taken = p.posted + 1

/-- The account, and that a handler that has run leaves the flag set. -/
structure ProducerSound (p : Producer) : Prop where
  flagged : p.interrupted = true → p.sigTERMsignalFlag = true
  account : ProducerAccount p

theorem born_sound : ProducerSound (.born .generating) := ⟨nofun, rfl⟩

theorem ProducerSound.signalled {p : Producer} (hp : ProducerSound p) :
    ProducerSound p.handlerSIGUSR1 := by
  refine ⟨fun _ => rfl, ?_⟩
  have haccount := hp.account
  unfold ProducerAccount at haccount ⊢
  simp only [Process.handlerSIGUSR1, true_and]
  cases hpc : p.pc <;> simp only [hpc] at haccount ⊢ <;> omega

theorem ProducerStep.sound {q q' : MessageQueue} {p p' : Producer} {move : ProducerMove}
    (h : ProducerStep q p move q' p') (hp : ProducerSound p) : ProducerSound p' := by
  have haccount := hp.account
  unfold ProducerAccount at haccount
  cases h with
  | generate msg hpc =>
    simp only [hpc] at haccount
    exact ⟨nofun, haccount⟩
  | eintrEmpty msg hpc hint =>
    simp only [hpc] at haccount
    exact ⟨hp.flagged, .inr ⟨hp.flagged hint, haccount⟩⟩
  | waitEmpty msg hpc hpos =>
    simp only [hpc] at haccount
    exact ⟨hp.flagged, .inl (by simp only [haccount])⟩
  | exit msg hpc hflag =>
    simp only [hpc] at haccount
    refine ⟨hp.flagged, ?_⟩
    rcases haccount with h | h
    · exact .inr h
    · exact .inl h.2
  | goOn msg hpc hflag =>
    simp only [hpc, hflag, Bool.false_eq_true, false_and, or_false] at haccount
    exact ⟨nofun, haccount⟩
  | postFull hpc =>
    simp only [hpc] at haccount
    exact ⟨hp.flagged, haccount⟩
  | eintrMutex msg hpc hint | waitMutex msg hpc hpos | count msg hpc | copyHeader msg hpc
  | copyData msg hpc | wrap hpc | postMutex hpc | print hpc =>
    simp only [hpc] at haccount
    exact ⟨hp.flagged, haccount⟩

theorem ProducerStep.read {q q' : MessageQueue} {p p' : Producer} {move : ProducerMove}
    (h : ProducerStep q p move q' p') : q'.read = q.read := by
  cases h <;> rfl

/-- A producer exchanges tokens with the semaphores one for one. -/
theorem ProducerStep.tokens {q q' : MessageQueue} {p p' : Producer} {move : ProducerMove}
    (h : ProducerStep q p move q' p') (hp : ProducerSound p) :
    q'.empty + q'.full + p'.held = q.empty + q.full + p.held := by
  have haccount := hp.account
  unfold ProducerAccount at haccount
  cases h with
  | waitEmpty msg hpc hpos =>
    simp only [hpc] at haccount
    rw [Process.held_of_eq haccount, Process.held_of_lt (by simp only [haccount]; omega)]
    simp only
    omega
  | postFull hpc =>
    simp only [hpc] at haccount
    rw [Process.held_of_lt (p := p) (by omega), Process.held_of_eq haccount]
    simp only
    omega
  | generate msg hpc | eintrEmpty msg hpc hint | eintrMutex msg hpc hint | exit msg hpc hflag
  | goOn msg hpc hflag | waitMutex msg hpc hpos | count msg hpc | copyHeader msg hpc
  | copyData msg hpc | wrap hpc | postMutex hpc | print hpc => rfl

/-- Nothing after `exit(0)` runs: the consumer stands at no position of that block, has moved no
message and posted no token. -/
structure ConsumerLive (p : Consumer) : Prop where
  position : p.pc = .unborn ∨ p.pc = .allocating ∨ p.pc = .waitingFull ∨ p.pc = .testing ∨
    p.pc = .exited
  idle : p.pc = .unborn → p.taken = 0
  moved : p.moved = 0
  posted : p.posted = 0

theorem born_live : ConsumerLive (.born .allocating) := ⟨.inr (.inl rfl), nofun, rfl, rfl⟩

theorem ConsumerLive.signalled {p : Consumer} (hp : ConsumerLive p) :
    ConsumerLive p.handlerSIGUSR1 := ⟨hp.position, hp.idle, hp.moved, hp.posted⟩

theorem ConsumerStep.live {q q' : MessageQueue} {p p' : Consumer} {move : ConsumerMove}
    (h : ConsumerStep q p move q' p') (hp : ConsumerLive p) :
    ConsumerLive p' ∧ q'.read = q.read ∧ q'.empty = q.empty := by
  have hpos := hp.position
  cases h with
  | allocate hpc => exact ⟨⟨.inr (.inr (.inl rfl)), nofun, hp.moved, hp.posted⟩, rfl, rfl⟩
  | eintrFull hpc hint | waitFull hpc hpos =>
    exact ⟨⟨.inr (.inr (.inr (.inl rfl))), nofun, hp.moved, hp.posted⟩, rfl, rfl⟩
  | exit hpc hflag =>
    exact ⟨⟨.inr (.inr (.inr (.inr rfl))), nofun, hp.moved, hp.posted⟩, rfl, rfl⟩
  | goOn hpc hflag => exact ⟨⟨.inr (.inl rfl), nofun, hp.moved, hp.posted⟩, rfl, rfl⟩
  | eintrMutex hpc | waitMutex hpc | count hpc | copyHeader hpc | copyData header hpc | wrap hpc
  | postEmpty hpc | postMutex hpc | print hpc => simp [hpc] at hpos

/-- A live consumer only takes tokens. -/
theorem ConsumerStep.tokens {q q' : MessageQueue} {p p' : Consumer} {move : ConsumerMove}
    (h : ConsumerStep q p move q' p') (hp : ConsumerLive p) :
    q'.empty + q'.full + p'.taken = q.empty + q.full + p.taken := by
  have hposition := hp.position
  cases h with
  | waitFull hpc hpos =>
    simp only
    omega
  | postEmpty hpc => simp [hpc] at hposition
  | allocate hpc | eintrFull hpc hint | eintrMutex hpc hint | exit hpc hflag | goOn hpc hflag
  | waitMutex hpc hpos | count hpc | copyHeader hpc | copyData header hpc | wrap hpc
  | postMutex hpc | print hpc => rfl

variable {P C : Type*} [DecidableEq P] [DecidableEq C]

namespace State

variable {s t : State P C} {a : Action P C}

/-- All that a step can do to one producer. -/
theorem Step.producer_cases (h : Step s a t) (i : P) :
    t.producer i = s.producer i ∨
      (a = .destroyProducer ∨ a = .destroyConsumer) ∧
        t.producer i = (s.producer i).handlerSIGUSR1 ∨
      a = .createProducer (some i) ∧ (s.producer i).pc = .unborn ∧
        t.producer i = .born .generating ∨
      ∃ m, a = .producer i m ∧ ProducerStep s.queue (s.producer i) m t.queue (t.producer i) := by
  cases h with
  | @producer k m q p hwork =>
    by_cases hi : i = k
    · subst hi
      exact .inr (.inr (.inr ⟨m, rfl, by simpa [setProducer] using hwork⟩))
    · exact .inl (by simp [setProducer, hi])
  | forkProducer k hpc =>
    by_cases hi : i = k
    · subst hi
      exact .inr (.inr (.inl ⟨rfl, hpc, by simp [setProducer]⟩))
    · exact .inl (by simp [setProducer, hi])
  | killProducer k rest hpids =>
    by_cases hi : i = k
    · subst hi
      exact .inr (.inl ⟨.inl rfl, by simp [setProducer]⟩)
    · exact .inl (by simp [setProducer, hi])
  | killAllProducer rest hpids => exact .inr (.inl ⟨.inl rfl, rfl⟩)
  | killAllConsumer rest hpids => exact .inr (.inl ⟨.inr rfl, rfl⟩)
  | consumer j hwork => exact .inl rfl
  | forkProducerFails => exact .inl rfl
  | forkConsumer j hpc => exact .inl rfl
  | forkConsumerFails => exact .inl rfl
  | killConsumer j rest hpids => exact .inl rfl
  | noProducer hpids => exact .inl rfl
  | noConsumer hpids => exact .inl rfl

/-- All that a step can do to one consumer. -/
theorem Step.consumer_cases (h : Step s a t) (j : C) :
    t.consumer j = s.consumer j ∨
      (a = .destroyProducer ∨ a = .destroyConsumer) ∧
        t.consumer j = (s.consumer j).handlerSIGUSR1 ∨
      a = .createConsumer (some j) ∧ (s.consumer j).pc = .unborn ∧
        t.consumer j = .born .allocating ∨
      ∃ m, a = .consumer j m ∧ ConsumerStep s.queue (s.consumer j) m t.queue (t.consumer j) := by
  cases h with
  | @consumer k m q p hwork =>
    by_cases hj : j = k
    · subst hj
      exact .inr (.inr (.inr ⟨m, rfl, by simpa [setConsumer] using hwork⟩))
    · exact .inl (by simp [setConsumer, hj])
  | forkConsumer k hpc =>
    by_cases hj : j = k
    · subst hj
      exact .inr (.inr (.inl ⟨rfl, hpc, by simp [setConsumer]⟩))
    · exact .inl (by simp [setConsumer, hj])
  | killConsumer k rest hpids =>
    by_cases hj : j = k
    · subst hj
      exact .inr (.inl ⟨.inr rfl, by simp [setConsumer]⟩)
    · exact .inl (by simp [setConsumer, hj])
  | killAllProducer rest hpids => exact .inr (.inl ⟨.inl rfl, rfl⟩)
  | killAllConsumer rest hpids => exact .inr (.inl ⟨.inr rfl, rfl⟩)
  | producer i hwork => exact .inl rfl
  | forkProducer i hpc => exact .inl rfl
  | forkProducerFails => exact .inl rfl
  | forkConsumerFails => exact .inl rfl
  | killProducer i rest hpids => exact .inl rfl
  | noProducer hpids => exact .inl rfl
  | noConsumer hpids => exact .inl rfl

theorem Step.forall_producer {I : Producer → Prop} (h : Step s a t)
    (hborn : I (.born .generating))
    (hsignal : a = .destroyProducer ∨ a = .destroyConsumer → ∀ p, I p → I p.handlerSIGUSR1)
    (hstep : ∀ i m q p, a = .producer i m → ProducerStep s.queue (s.producer i) m q p →
      I (s.producer i) → I p)
    (hs : ∀ i, I (s.producer i)) (i : P) : I (t.producer i) := by
  rcases h.producer_cases i with heq | ⟨hkill, heq⟩ | ⟨_, _, heq⟩ | ⟨m, ha, hwork⟩
  · exact heq ▸ hs i
  · exact heq ▸ hsignal hkill _ (hs i)
  · exact heq ▸ hborn
  · exact hstep i m _ _ ha hwork (hs i)

theorem Step.forall_consumer {I : Consumer → Prop} (h : Step s a t)
    (hborn : I (.born .allocating))
    (hsignal : a = .destroyProducer ∨ a = .destroyConsumer → ∀ p, I p → I p.handlerSIGUSR1)
    (hstep : ∀ j m q p, a = .consumer j m → ConsumerStep s.queue (s.consumer j) m q p →
      I (s.consumer j) → I p)
    (hs : ∀ j, I (s.consumer j)) (j : C) : I (t.consumer j) := by
  rcases h.consumer_cases j with heq | ⟨hkill, heq⟩ | ⟨_, _, heq⟩ | ⟨m, ha, hwork⟩
  · exact heq ▸ hs j
  · exact heq ▸ hsignal hkill _ (hs j)
  · exact heq ▸ hborn
  · exact hstep j m _ _ ha hwork (hs j)

variable [Fintype P] [Fintype C]

/-- A quantity that each process exchanges with the queue is conserved. -/
theorem Step.conserved {f : MessageQueue → ℕ} {w : Producer → ℕ} {v : Consumer → ℕ}
    (hproducer : ∀ i m q p, a = .producer i m → ProducerStep s.queue (s.producer i) m q p →
      f q + w p = f s.queue + w (s.producer i))
    (hconsumer : ∀ j m q p, a = .consumer j m → ConsumerStep s.queue (s.consumer j) m q p →
      f q + v p = f s.queue + v (s.consumer j))
    (hw : ∀ p, w p.handlerSIGUSR1 = w p) (hv : ∀ p, v p.handlerSIGUSR1 = v p)
    (hwborn : ∀ i, (s.producer i).pc = .unborn → w (.born .generating) = w (s.producer i))
    (hvborn : ∀ j, (s.consumer j).pc = .unborn → v (.born .allocating) = v (s.consumer j))
    (h : Step s a t) :
    f t.queue + total w t.producer + total v t.consumer =
      f s.queue + total w s.producer + total v s.consumer := by
  cases h with
  | @producer i move q p hwork =>
    have hlocal := hproducer i move q p rfl hwork
    have hsum := total_update w s.producer i p
    simp only [setProducer]
    omega
  | @consumer j move q p hwork =>
    have hlocal := hconsumer j move q p rfl hwork
    have hsum := total_update v s.consumer j p
    simp only [setConsumer]
    omega
  | forkProducer i hpc =>
    have hsum := total_update w s.producer i (.born .generating)
    rw [hwborn i hpc] at hsum
    simp only [setProducer]
    omega
  | forkConsumer j hpc =>
    have hsum := total_update v s.consumer j (.born .allocating)
    rw [hvborn j hpc] at hsum
    simp only [setConsumer]
    omega
  | killProducer i rest hpids =>
    have hsum := total_update w s.producer i (s.producer i).handlerSIGUSR1
    rw [hw] at hsum
    simp only [setProducer]
    omega
  | killConsumer j rest hpids =>
    have hsum := total_update v s.consumer j (s.consumer j).handlerSIGUSR1
    rw [hv] at hsum
    simp only [setConsumer]
    omega
  | killAllProducer rest hpids | killAllConsumer rest hpids =>
    have hp : total w s.killAll.producer = total w s.producer := total_congr fun i => hw _
    have hc : total v s.killAll.consumer = total v s.consumer := total_congr fun j => hv _
    exact congrArg₂ (f s.queue + · + ·) hp hc
  | forkProducerFails => rfl
  | forkConsumerFails => rfl
  | noProducer hpids => rfl
  | noConsumer hpids => rfl

/-- What every process satisfies in every reachable state. -/
structure Sound (s : State P C) : Prop where
  producer : ∀ i, ProducerSound (s.producer i)
  consumer : ∀ j, ConsumerLive (s.consumer j)
  read : s.queue.read = []

omit [DecidableEq P] [DecidableEq C] [Fintype P] [Fintype C] in
theorem start_sound : (start : State P C).Sound :=
  ⟨fun _ => ⟨nofun, rfl⟩, fun _ => ⟨.inl rfl, fun _ => rfl, rfl, rfl⟩, rfl⟩

omit [Fintype P] [Fintype C] in
theorem Step.sound (h : Step s a t) (hs : s.Sound) : t.Sound := by
  refine ⟨?_, ?_, ?_⟩
  · exact h.forall_producer born_sound (fun _ p => ProducerSound.signalled)
      (fun i m q p _ hwork hp => hwork.sound hp) hs.producer
  · exact h.forall_consumer born_live (fun _ p => ConsumerLive.signalled)
      (fun j m q p _ hwork hp => (hwork.live hp).1) hs.consumer
  · cases h with
    | producer i hwork => exact hwork.read.trans hs.read
    | consumer j hwork => exact (hwork.live (hs.consumer j)).2.1.trans hs.read
    | forkProducer i hpc => exact hs.read
    | forkProducerFails => exact hs.read
    | forkConsumer j hpc => exact hs.read
    | forkConsumerFails => exact hs.read
    | killProducer i rest hpids => exact hs.read
    | killConsumer j rest hpids => exact hs.read
    | killAllProducer rest hpids => exact hs.read
    | killAllConsumer rest hpids => exact hs.read
    | noProducer hpids => exact hs.read
    | noConsumer hpids => exact hs.read

/-- Every token is in a semaphore, with a producer that owes its counterpart, or with the
consumers, who give none back. -/
def Accounted (s : State P C) : Prop :=
  s.queue.empty + s.queue.full + total Process.held s.producer + total Process.taken s.consumer =
    MessageQueue.bufferSize

omit [DecidableEq P] [DecidableEq C] in
theorem start_accounted : (start : State P C).Accounted := by
  have hp : total Process.held (start : State P C).producer = 0 := total_eq_zero fun _ => rfl
  have hc : total Process.taken (start : State P C).consumer = 0 := total_eq_zero fun _ => rfl
  rw [Accounted, hp, hc]
  rfl

theorem Step.accounted (h : Step s a t) (hs : s.Sound) (hacc : s.Accounted) : t.Accounted := by
  have hsum : t.queue.empty + t.queue.full + total Process.held t.producer +
      total Process.taken t.consumer = s.queue.empty + s.queue.full +
        total Process.held s.producer + total Process.taken s.consumer := by
    refine h.conserved (f := fun q => q.empty + q.full) ?_ ?_ ?_ ?_ ?_ ?_
    · exact fun i m q p _ hwork => hwork.tokens (hs.producer i)
    · exact fun j m q p _ hwork => hwork.tokens (hs.consumer j)
    · exact fun p => rfl
    · exact fun p => rfl
    · intro i hpc
      have haccount := (hs.producer i).account
      simp only [ProducerAccount, hpc] at haccount
      rw [Process.held_of_eq haccount, Process.held_born]
    · exact fun j hpc => ((hs.consumer j).idle hpc).symm
  exact hsum.trans hacc

/-- The laws of every reachable state, with signals at any point. -/
structure Lawful (s : State P C) : Prop where
  sound : s.Sound
  accounted : s.Accounted

omit [DecidableEq P] [DecidableEq C] in
theorem start_lawful : (start : State P C).Lawful := ⟨start_sound, start_accounted⟩

theorem next_lawful (s : State P C) (a : Action P C) (t : State P C) (hs : s.Lawful)
    (h : s.next a = some t) : t.Lawful :=
  have hstep := next_step h
  ⟨hstep.sound hs.sound, hstep.accounted hs.sound hs.accounted⟩

end State

end OsispLabs.Lab4
