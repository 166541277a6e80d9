import OsispLabs.Lab4.Accounting

/-!
# Tokens and messages while no process is destroyed

The closing brace of the flag test stands at the end of the loop body of `workConsumer`, so the
removal of the message is part of the branch that exits. A consumer whose wait succeeded goes
back to the start of its loop with the token, and the queue has lost a slot.
-/
namespace OsispLabs.Lab4
open Lib

variable {P C : Type*} [DecidableEq P] [DecidableEq C] [Fintype P] [Fintype C]

namespace State

/-- Every token a consumer took was followed, before its next `sem_wait` on `full`, by one removal
and one `sem_post` on `empty`; the processes with an unposted token account for what is missing
in the semaphores; and the messages come out in the order in which they went in. -/
structure Delivered (s : State P C) : Prop where
  matched : ∀ j, (s.consumer j).pc = .allocating ∨ (s.consumer j).pc = .waitingFull →
    (s.consumer j).moved = (s.consumer j).taken ∧ (s.consumer j).posted = (s.consumer j).taken
  conserved : s.queue.empty + s.queue.full + total Process.held s.producer +
    total Process.held s.consumer = MessageQueue.bufferSize
  inOrder : s.queue.read <+: s.queue.added

/-- A step of a run in which no process is destroyed. -/
def Undisturbed (_ : State P C) (a : Action P C) : Prop :=
  a ≠ .destroyProducer ∧ a ≠ .destroyConsumer

/-- No consumer moves on from its flag test. -/
def Stays (s : State P C) : Action P C → Prop
  | .consumer j _ => (s.consumer j).pc ≠ .testing
  | .producer _ _ | .createProducer _ | .createConsumer _ | .destroyProducer
  | .destroyConsumer => True

instance (s : State P C) : ∀ a, Decidable (s.Stays a)
  | .consumer j _ => inferInstanceAs (Decidable ((s.consumer j).pc ≠ .testing))
  | .producer _ _ | .createProducer _ | .createConsumer _ | .destroyProducer
  | .destroyConsumer => isTrue trivial

/-- No handler has run in the consumer, so its waits end with a token. -/
structure ConsumerQuiet (p : Consumer) : Prop where
  interrupted : p.interrupted = false
  flag : p.sigTERMsignalFlag = false
  token : p.pc = .testing → 1 ≤ p.taken

/-- The consumer is at the start of its loop with a token, or has taken two. -/
def ConsumerRelapsed (p : Consumer) : Prop :=
  1 ≤ p.taken ∧ (p.pc = .allocating ∨ p.pc = .waitingFull) ∨ 2 ≤ p.taken

/-- The tokens of a consumer that has not gone back to the start of its loop. -/
def ConsumerAccount (p : Consumer) : Prop :=
  match p.pc with
  | .unborn | .allocating | .waitingFull => p.taken = 0
  | _ => p.taken ≤ 1

variable {s t : State P C} {a : Action P C}

omit [DecidableEq P] [DecidableEq C] [Fintype P] [Fintype C] in
theorem Undisturbed.not_destroy (hok : s.Undisturbed a) :
    ¬ (a = .destroyProducer ∨ a = .destroyConsumer) := by
  rintro (h | h)
  · exact hok.1 h
  · exact hok.2 h

omit [Fintype P] [Fintype C] in
theorem Step.quiet (h : Step s a t) (hok : s.Undisturbed a)
    (hs : ∀ j, ConsumerQuiet (s.consumer j)) (j : C) : ConsumerQuiet (t.consumer j) := by
  refine h.forall_consumer ⟨rfl, rfl, nofun⟩ (fun hkill => absurd hkill hok.not_destroy) ?_ hs j
  intro j m q p _ hwork hquiet
  cases hwork with
  | allocate hpc => exact ⟨rfl, hquiet.flag, nofun⟩
  | eintrFull hpc hint | eintrMutex hpc hint => simp [hquiet.interrupted] at hint
  | exit hpc hflag => simp [hquiet.flag] at hflag
  | waitFull hpc hpos => exact ⟨hquiet.interrupted, hquiet.flag, fun _ => Nat.le_add_left 1 _⟩
  | goOn hpc hflag | waitMutex hpc hpos | count hpc | copyHeader hpc
  | copyData header hpc | wrap hpc | postEmpty hpc | postMutex hpc | print hpc =>
    exact ⟨hquiet.interrupted, hquiet.flag, nofun⟩

omit [Fintype P] [Fintype C] in
/-- Tokens that a consumer has taken home stay lost. -/
theorem Step.relapsed (h : Step s a t) (hok : s.Undisturbed a) (hs : s.Sound) {j : C}
    (hquiet : ConsumerQuiet (s.consumer j)) (hj : ConsumerRelapsed (s.consumer j)) :
    ConsumerRelapsed (t.consumer j) := by
  unfold ConsumerRelapsed at hj
  rcases h.consumer_cases j with heq | ⟨hkill, _⟩ | ⟨_, hpc, _⟩ | ⟨m, _, hwork⟩
  · rw [heq]
    exact hj
  · exact absurd hkill hok.not_destroy
  · have hidle := (hs.consumer j).idle hpc
    omega
  · generalize t.queue = q, t.consumer j = p at hwork ⊢
    cases hwork with
    | allocate hpc => exact hj.imp (fun h => ⟨h.1, .inr rfl⟩) id
    | waitFull hpc hpos => exact .inr (show 2 ≤ (s.consumer j).taken + 1 by omega)
    | eintrFull hpc hint | eintrMutex hpc hint => simp [hquiet.interrupted] at hint
    | exit hpc hflag => simp [hquiet.flag] at hflag
    | goOn hpc hflag => exact hj.imp (fun h => ⟨h.1, .inl rfl⟩) id
    | waitMutex hpc | count hpc | copyHeader hpc | copyData header hpc | wrap hpc | postEmpty hpc
    | postMutex hpc | print hpc => exact .inr (by simpa [hpc] using hj)

omit [Fintype P] [Fintype C] in
/-- Moving on from the flag test takes a token home. -/
theorem Step.relapses (h : Step s a t) (hquiet : ∀ j, ConsumerQuiet (s.consumer j))
    (hnot : ¬ s.Stays a) : ∃ j, ConsumerRelapsed (t.consumer j) := by
  cases a with
  | consumer j m =>
    have hpc : (s.consumer j).pc = .testing := by simpa [Stays] using hnot
    have htoken := (hquiet j).token hpc
    refine ⟨j, ?_⟩
    cases h with
    | consumer _ hwork =>
      have hflag := (hquiet j).flag
      cases hwork <;> simp_all [setConsumer, ConsumerRelapsed]
  | producer i m => exact absurd trivial hnot
  | createProducer child => exact absurd trivial hnot
  | createConsumer child => exact absurd trivial hnot
  | destroyProducer => exact absurd trivial hnot
  | destroyConsumer => exact absurd trivial hnot

omit [Fintype P] [Fintype C] in
theorem Step.account (h : Step s a t) (hok : s.Undisturbed a) (hstay : s.Stays a)
    (hsound : s.Sound) (hs : ∀ j, ConsumerAccount (s.consumer j)) (j : C) :
    ConsumerAccount (t.consumer j) := by
  have hborn : ConsumerAccount (.born .allocating) := rfl
  refine h.forall_consumer hborn (fun hkill => absurd hkill hok.not_destroy) ?_ hs j
  intro j m q p ha hwork haccount
  subst ha
  unfold ConsumerAccount at haccount
  cases hwork with
  | allocate hpc =>
    simp only [hpc] at haccount
    exact haccount
  | waitFull hpc hpos =>
    simp only [hpc] at haccount
    exact show (s.consumer j).taken + 1 ≤ 1 by omega
  | goOn hpc hflag => exact absurd hpc hstay
  | print hpc =>
    have hposition := (hsound.consumer j).position
    simp [hpc] at hposition
  | eintrFull hpc hint | eintrMutex hpc hint | exit hpc hflag | waitMutex hpc hpos | count hpc
  | copyHeader hpc | copyData header hpc | wrap hpc | postEmpty hpc | postMutex hpc =>
    simp only [hpc] at haccount
    exact show (s.consumer j).taken ≤ 1 by omega

/-- The laws of a run in which no process is destroyed. -/
structure Calm (s : State P C) : Prop where
  lawful : s.Lawful
  quiet : ∀ j, ConsumerQuiet (s.consumer j)

omit [DecidableEq P] [DecidableEq C] in
theorem start_calm : (start : State P C).Calm := ⟨start_lawful, fun _ => ⟨rfl, rfl, nofun⟩⟩

theorem next_calm (s : State P C) (a : Action P C) (t : State P C) (hs : s.Calm)
    (hok : s.Undisturbed a) (h : s.next a = some t) : t.Calm :=
  ⟨next_lawful s a t hs.lawful h, (next_step h).quiet hok hs.quiet⟩

omit [DecidableEq P] [DecidableEq C] in
theorem Calm.delivered (hs : s.Calm) (haccount : ∀ j, ConsumerAccount (s.consumer j)) :
    s.Delivered := by
  have hlive := hs.lawful.sound.consumer
  refine ⟨?_, ?_, ?_⟩
  · intro j hpc
    have htaken : (s.consumer j).taken = 0 := by
      have h := haccount j
      unfold ConsumerAccount at h
      rcases hpc with hpc | hpc <;> simpa only [hpc] using h
    rw [htaken]
    exact ⟨(hlive j).moved, (hlive j).posted⟩
  · have hheld : total Process.held s.consumer = total Process.taken s.consumer := by
      apply total_congr
      intro j
      have h := haccount j
      have hle : (s.consumer j).taken ≤ 1 := by
        unfold ConsumerAccount at h
        split at h <;> omega
      rw [Process.held, (hlive j).posted]
      split <;> omega
    rw [hheld]
    exact hs.lawful.accounted
  · rw [hs.lawful.sound.read]
    exact List.nil_prefix

omit [DecidableEq P] [DecidableEq C] in
theorem Calm.not_relapsed (hs : s.Calm) (h : s.Delivered) (j : C) :
    ¬ ConsumerRelapsed (s.consumer j) := by
  have hlive := hs.lawful.sound.consumer
  rintro (⟨htaken, hpc⟩ | htaken)
  · have hmoved := (h.matched j hpc).1
    rw [(hlive j).moved] at hmoved
    omega
  · have hheld : ∀ k, (s.consumer k).held ≤ (s.consumer k).taken := by
      intro k
      rw [Process.held]
      split <;> omega
    have hlt : total Process.held s.consumer < total Process.taken s.consumer := by
      refine total_lt hheld (i := j) ?_
      rw [Process.held, (hlive j).posted, if_pos (by omega)]
      exact htaken
    have hconserved := h.conserved
    have haccounted := hs.lawful.accounted
    unfold Accounted at haccounted
    omega

/-- A consumer that moves on from its flag test takes a token home for good. -/
theorem delivered_decides : Decides (next (P := P) (C := C)) Undisturbed Stays Calm
    (fun s => ∀ j, ConsumerAccount (s.consumer j)) (fun s => ∃ j, ConsumerRelapsed (s.consumer j))
    Delivered where
  step := next_calm _ _ _
  keep hs haccount hok hstay h := (next_step h).account hok hstay hs.lawful.sound haccount
  spoil hs _ hnot h := (next_step h).relapses hs.quiet hnot
  last := by
    rintro _ _ _ hs hok ⟨j, hj⟩ h
    exact ⟨j, (next_step h).relapsed hok hs.lawful.sound (hs.quiet j) hj⟩
  good hs haccount := hs.delivered haccount
  bad := by
    rintro _ hs ⟨j, hj⟩ hdelivered
    exact hs.not_relapsed hdelivered j hj

/-- While no process is destroyed, tokens and messages are accounted for exactly as long as no
consumer moves on from its flag test. -/
theorem run_delivered_iff {as : List (Action P C)}
    (hcalm : ∀ a ∈ as, a ≠ .destroyProducer ∧ a ≠ .destroyConsumer)
    (hrun : exec next start as = some s) : s.Delivered ↔ StepsMeet next Stays start as := by
  have hperm : StepsMeet next Undisturbed (start : State P C) as :=
    stepsMeet_of_forall (fun a ha _ => hcalm a ha) _
  exact delivered_decides.iff_stepsMeet start_calm (fun _ => rfl) hperm hrun

/-- One message, and the first statements of one consumer. -/
def firstTurn (statements : ℕ) : List (Action Unit Unit) :=
  .createProducer (some ()) :: .createConsumer (some ()) :: turn () 9 ++
    List.replicate statements (.consumer () .statement)

theorem run_delivered_waiting :
    ∃ s : State Unit Unit, exec next start (firstTurn 2) = some s ∧ s.Delivered :=
  have hrun : exec next start (firstTurn 2) = some _ := rfl
  ⟨_, hrun, (run_delivered_iff (by decide) hrun).mpr (by decide)⟩

/-- With the third statement the consumer takes the token home. -/
theorem consumer_not_delivered :
    ¬ ∀ (as : List (Action Unit Unit)) (s : State Unit Unit),
      (∀ a ∈ as, a ≠ .destroyProducer ∧ a ≠ .destroyConsumer) →
      exec next start as = some s → s.Delivered := by
  intro hall
  have h := hall (firstTurn 3) _ (by decide) rfl
  exact absurd (h.matched () (.inl rfl)).1 (by decide)

end State

end OsispLabs.Lab4
