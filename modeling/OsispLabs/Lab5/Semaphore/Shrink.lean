import OsispLabs.Lab5.Semaphore.Tokens

/-!
# The wait of `discrSize` in `lab5_1.c`

`discrSize` decides on `full` and then waits on `empty` with the mutex held. Tokens in flight are
in neither semaphore, so the test does not guarantee a token: a wait that finds none blocks the
main thread, and with it the whole program, for good.
-/
namespace OsispLabs.Lab5.Semaphore
open Lib

variable {P C α : Type*} [DecidableEq P] [DecidableEq C] [Fintype P] [Fintype C]

namespace State

/-- When `discrSize` is at its `sem_wait`, `empty` is at least one. -/
def TokenReady (s : State P C α) : Prop := s.main = .waiting → 1 ≤ s.empty

/-- The main thread is blocked on `empty`, with the mutex held. -/
def Blocked (s : State P C α) : Prop := s.main = .waiting ∧ s.mutex = true ∧ s.empty = 0

/-- The steps that leave capacity to remove: the test finds a slot that is neither full nor in
flight, and until the wait no producer takes the last such slot. -/
def Roomy (s : State P C α) : Action P C α → Prop
  | .main => s.main = .testing → s.full < s.ring.sizeQueue →
      s.full + s.inFlight < s.ring.sizeQueue
  | .produce _ _ => s.main = .shrinking ∨ s.main = .waiting →
      s.full + s.inFlight + 1 < s.ring.sizeQueue + s.main.owed
  | _ => True

instance (s : State P C α) : (a : Action P C α) → Decidable (s.Roomy a)
  | .main => inferInstanceAs (Decidable (_ → _ → _))
  | .produce _ _ => inferInstanceAs (Decidable (_ → _))
  | .producer _ | .consumer _ | .incremSize | .discrSize => isTrue trivial

/-- The invariant of roomy runs: while `discrSize` shrinks, the slot it removes is free. -/
def Reserving (s : State P C α) : Prop :=
  s.main = .shrinking ∨ s.main = .waiting → s.full + s.inFlight < s.ring.sizeQueue + s.main.owed

variable {n : ℕ} {s t : State P C α} {a : Action P C α}

omit [DecidableEq P] [DecidableEq C] in
theorem reserving_of_outside (hshrinking : s.main ≠ .shrinking) (hwaiting : s.main ≠ .waiting) :
    s.Reserving := fun h => (h.elim hshrinking hwaiting).elim

omit [DecidableEq P] [DecidableEq C] in
theorem start_reserving (n : ℕ) : (start n : State P C α).Reserving :=
  reserving_of_outside (by simp [start]) (by simp [start])

omit [DecidableEq C] in
theorem Reserving.moveProducer (hs : s.Reserving) {i : P} {old new : ProducerPc α}
    (hpc : s.producer i = old) {ring : Ring α} {empty full : ℕ} {mutex : Bool} {produced : List α}
    (hsize : ring.sizeQueue = s.ring.sizeQueue)
    (hm : full + new.inFlight = s.full + old.inFlight) :
    ({ s.setProducer i new with
        ring := ring, empty := empty, full := full, mutex := mutex, produced := produced } :
      State P C α).Reserving := by
  intro hmain
  have hp := total_setProducer ProducerPc.inFlight s i new hpc
  have hlt := hs hmain
  simp only [inFlight, setProducer_consumer, setProducer_main] at hlt ⊢
  omega

omit [DecidableEq P] in
theorem Reserving.moveConsumer (hs : s.Reserving) {j : C} {old new : ConsumerPc}
    (hpc : s.consumer j = old) {ring : Ring α} {empty full : ℕ} {mutex : Bool}
    {consumed : List (Slot α)} (hsize : ring.sizeQueue = s.ring.sizeQueue)
    (hm : full + new.inFlight ≤ s.full + old.inFlight) :
    ({ s.setConsumer j new with
        ring := ring, empty := empty, full := full, mutex := mutex, consumed := consumed } :
      State P C α).Reserving := by
  intro hmain
  have hc := total_setConsumer ConsumerPc.inFlight s j new hpc
  have hlt := hs hmain
  simp only [inFlight, setConsumer_producer, setConsumer_main] at hlt ⊢
  omega

omit [DecidableEq C] in
theorem reserving_waitEmpty {i : P} {msg : α} (hroomy : s.Roomy (.produce i msg))
    (hpc : s.producer i = .outside) :
    ({ s.setProducer i (.token msg) with empty := s.empty - 1 } : State P C α).Reserving := by
  intro hmain
  have hp := total_setProducer ProducerPc.inFlight s i (.token msg) hpc
  have hlt := hroomy hmain
  simp only [inFlight, setProducer_consumer, setProducer_main, setProducer_ring, setProducer_full,
    ProducerPc.inFlight, ProducerPc.reserved, ProducerPc.unposted] at hp hlt ⊢
  omega

theorem Step.reserving (h : Step s a t) (hs : s.Reserving) (hroomy : s.Roomy a)
    (hpos : s.Shrinkable) : t.Reserving := by
  cases h with
  | waitEmpty i msg hpc hpos => exact reserving_waitEmpty hroomy hpc
  | lockProducer i msg hpc hfree => exact hs.moveProducer hpc rfl rfl
  | put i msg hpc => exact hs.moveProducer hpc rfl rfl
  | postFull i hpc =>
    refine hs.moveProducer hpc rfl ?_
    simp only [ProducerPc.inFlight, ProducerPc.reserved, ProducerPc.unposted]
  | unlockProducer i hpc => exact hs.moveProducer hpc rfl rfl
  | waitFull j hpc hpos =>
    refine hs.moveConsumer hpc rfl ?_
    simp only [ConsumerPc.inFlight, ConsumerPc.claimed, ConsumerPc.unposted]
    omega
  | lockConsumer j hpc hfree => exact hs.moveConsumer hpc rfl (Nat.le_refl _)
  | take j hpc => exact hs.moveConsumer hpc rfl (Nat.le_refl _)
  | postEmpty j hpc => exact hs.moveConsumer hpc rfl (Nat.le_succ _)
  | unlockConsumer j hpc => exact hs.moveConsumer hpc rfl (Nat.le_refl _)
  | decide hpc hroom => exact fun _ => hroomy hpc hroom
  | shrink hpc =>
    intro _
    have hlt := hs (.inl hpc)
    have hsize := hpos hpc
    simp only [inFlight, hpc, MainPc.owed, Ring.shrink] at hlt ⊢
    omega
  | lockGrow hpc hfree => exact reserving_of_outside (by simp) (by simp)
  | grow hpc => exact reserving_of_outside (by simp) (by simp)
  | postGrown hpc => exact reserving_of_outside (by simp) (by simp)
  | shift hpc => exact reserving_of_outside (by simp) (by simp)
  | lockShrink hpc hfree => exact reserving_of_outside (by simp) (by simp)
  | decline hpc hfull => exact reserving_of_outside (by simp) (by simp)
  | waitShrunk hpc hpos => exact reserving_of_outside (by simp) (by simp)
  | unlockMain hpc => exact reserving_of_outside (by simp) (by simp)

omit [DecidableEq P] [DecidableEq C] in
/-- At its wait, `discrSize` finds a token exactly when the tokens outside `empty` fit the reduced
capacity. -/
theorem Lawful.tokenReady_iff (hs : s.Lawful) (hw : s.main = .waiting) :
    1 ≤ s.empty ↔ s.full + s.inFlight < s.ring.sizeQueue + s.main.owed := by
  have hb := hs.balanced
  simp only [Balanced, hw, MainPc.unposted, MainPc.owed] at hb ⊢
  omega

/-- In a roomy run the wait of `discrSize` always finds a token. -/
theorem run_tokenReady (n : ℕ) (as : List (Action P C α)) (s : State P C α)
    (hroomy : StepsMeet next Roomy (start n) as) (hrun : exec next (start n) as = some s) :
    s.TokenReady := by
  intro hw
  have hinv := exec_invariant_of_steps (I := fun s : State P C α => s.Lawful ∧ s.Reserving)
    (fun s a t hs ha hnext => ⟨next_lawful s a t hs.1 hnext,
      (next_step hnext).reserving hs.2 ha hs.1.shrinkable⟩)
    ⟨start_lawful n, start_reserving n⟩ hroomy hrun
  exact (hinv.1.tokenReady_iff hw).mpr (hinv.2 (.inr hw))

theorem run_tokenReady_shrunk :
    ∃ s : State (Fin 2) (Fin 1) ℕ, exec next (start 3) [.produce 0 5, .discrSize, .main,
      .produce 1 6, .main] = some s ∧ s.TokenReady :=
  ⟨_, rfl, run_tokenReady 3 [.produce 0 5, .discrSize, .main, .produce 1 6, .main] _
    (by decide) rfl⟩

/-- Ten producers between their `sem_wait` and the mutex hold every token while `full` is zero. -/
theorem shrink_without_token :
    ¬ ∀ (as : List (Action (Fin 10) (Fin 1) ℕ)) (s : State (Fin 10) (Fin 1) ℕ),
      exec next (start 10) as = some s → s.TokenReady := by
  intro hall
  have h := hall ((List.finRange 10).map (.produce · 0) ++ [.discrSize, .main, .main]) _ rfl
  exact absurd (h rfl) (by decide)

section Deadlock

omit [DecidableEq P] [DecidableEq C] in
/-- While the main thread is inside a resize, no other thread is inside its critical section. -/
theorem Exclusive.producer_outside (hs : s.Exclusive) (hmain : s.main.owns = 1) (i : P) :
    (s.producer i).owns = 0 := by
  have hle := apply_le_total ProducerPc.owns s.producer i
  have hm := s.mutex.toNat_le
  have hx : _ = s.mutex.toNat := hs
  omega

omit [DecidableEq P] [DecidableEq C] in
theorem Exclusive.consumer_outside (hs : s.Exclusive) (hmain : s.main.owns = 1) (j : C) :
    (s.consumer j).owns = 0 := by
  have hle := apply_le_total ConsumerPc.owns s.consumer j
  have hm := s.mutex.toNat_le
  have hx : _ = s.mutex.toNat := hs
  omega

/-- Once the main thread is blocked, all that is left are the consumers' waits on `full`. -/
theorem Step.blocked (h : Step s a t) (hs : s.Exclusive) (hb : s.Blocked) :
    t.Blocked ∧ t.full + 1 = s.full := by
  obtain ⟨hmain, hmutex, hempty⟩ := hb
  have howns : s.main.owns = 1 := by rw [hmain]; rfl
  have hp := hs.producer_outside howns
  have hc := hs.consumer_outside howns
  cases h with
  | waitFull j hpc hpos => exact ⟨⟨hmain, hmutex, hempty⟩, Nat.sub_add_cancel hpos⟩
  | waitEmpty i msg hpc hpos => omega
  | lockProducer i msg hpc hfree => simp [hmutex] at hfree
  | put i msg hpc => exact absurd (hp i) (by rw [hpc]; exact Nat.one_ne_zero)
  | postFull i hpc => exact absurd (hp i) (by rw [hpc]; exact Nat.one_ne_zero)
  | unlockProducer i hpc => exact absurd (hp i) (by rw [hpc]; exact Nat.one_ne_zero)
  | lockConsumer j hpc hfree => simp [hmutex] at hfree
  | take j hpc => exact absurd (hc j) (by rw [hpc]; exact Nat.one_ne_zero)
  | postEmpty j hpc => exact absurd (hc j) (by rw [hpc]; exact Nat.one_ne_zero)
  | unlockConsumer j hpc => exact absurd (hc j) (by rw [hpc]; exact Nat.one_ne_zero)
  | waitShrunk hpc hpos => omega
  | lockGrow hpc hfree => rw [hmain] at hpc; cases hpc
  | grow hpc => rw [hmain] at hpc; cases hpc
  | postGrown hpc => rw [hmain] at hpc; cases hpc
  | shift hpc => rw [hmain] at hpc; cases hpc
  | lockShrink hpc hfree => rw [hmain] at hpc; cases hpc
  | decide hpc hroom => rw [hmain] at hpc; cases hpc
  | decline hpc hfull => rw [hmain] at hpc; cases hpc
  | shrink hpc => rw [hmain] at hpc; cases hpc
  | unlockMain hpc => rw [hmain] at hpc; cases hpc

/-- A blocked program stops: it stays blocked and makes at most `full` more steps. -/
theorem run_blocked (hs : s.Lawful) (hb : s.Blocked) {as : List (Action P C α)}
    (hrun : exec next s as = some t) : t.Blocked ∧ as.length + t.full = s.full := by
  induction as generalizing s with
  | nil =>
    obtain rfl : s = t := by simpa using hrun
    exact ⟨hb, Nat.zero_add _⟩
  | cons a as ih =>
    obtain ⟨u, hu, hrest⟩ := exec_cons_eq_some.mp hrun
    obtain ⟨hub, hfull⟩ := (next_step hu).blocked hs.exclusive hb
    obtain ⟨htb, hlen⟩ := ih (next_lawful s a u hs hu) hub hrest
    refine ⟨htb, ?_⟩
    rw [List.length_cons]
    omega

omit [DecidableEq P] [DecidableEq C] in
theorem Lawful.blocked_of_full (hs : s.Lawful) (hw : s.main = .waiting)
    (hfull : s.ring.sizeQueue + 1 ≤ s.full + s.inFlight) : s.Blocked := by
  refine ⟨hw, hs.exclusive.mutex_of_main (by rw [hw]; rfl), ?_⟩
  have hiff := hs.tokenReady_iff hw
  simp only [hw, MainPc.owed] at hiff
  omega

/-- From a decision to shrink with all capacity full or in flight, the next step blocks. -/
theorem Lawful.shrink_blocks (hs : s.Lawful) (hpc : s.main = .shrinking)
    (hfull : s.ring.sizeQueue ≤ s.full + s.inFlight) :
    ∃ t, exec next s [.main] = some t ∧ t.Blocked := by
  have hnext : s.next .main = some { s with ring := s.ring.shrink, main := .waiting } := by
    simp only [next, stepMain, hpc]
  refine ⟨_, by rw [exec_cons, hnext]; rfl, ?_⟩
  refine (next_lawful s _ _ hs hnext).blocked_of_full rfl ?_
  have hpos := hs.shrinkable hpc
  simp only [inFlight, Ring.shrink] at hfull ⊢
  omega

/-- Every step that is not roomy can be followed to a blocked state by the main thread alone. -/
theorem Lawful.not_roomy_blocks (hs : s.Lawful) (hnot : ¬ s.Roomy a) (hnext : s.next a = some t) :
    ∃ as u, exec next t as = some u ∧ u.Blocked := by
  have ht := next_lawful s a t hs hnext
  cases a with
  | produce i msg =>
    cases next_step hnext with
    | waitEmpty _ _ hpc hpos =>
      have hp := total_setProducer ProducerPc.inFlight s i (.token msg) hpc
      simp only [Roomy, Classical.not_imp, ProducerPc.inFlight, ProducerPc.reserved,
        ProducerPc.unposted] at hnot hp
      obtain ⟨hmain, hfull⟩ := hnot
      rcases hmain with hmain | hmain
      · refine ⟨_, ht.shrink_blocks hmain ?_⟩
        simp only [inFlight, hmain, MainPc.owed, setProducer_consumer, setProducer_ring,
          setProducer_full] at hfull ⊢
        omega
      · refine ⟨[], _, rfl, ht.blocked_of_full hmain ?_⟩
        simp only [inFlight, hmain, MainPc.owed, setProducer_consumer, setProducer_ring,
          setProducer_full] at hfull ⊢
        omega
  | main =>
    simp only [Roomy, Classical.not_imp] at hnot
    obtain ⟨hpc, hroom, hfull⟩ := hnot
    have hdecide : s.next .main = some { s with main := .shrinking } := by
      simp only [next, stepMain, hpc, if_pos hroom]
    obtain rfl := Option.some.inj (hnext.symm.trans hdecide)
    exact ⟨_, ht.shrink_blocks rfl (Nat.le_of_not_lt hfull)⟩
  | producer i => exact absurd trivial hnot
  | consumer j => exact absurd trivial hnot
  | incremSize => exact absurd trivial hnot
  | discrSize => exact absurd trivial hnot

end Deadlock

end State

end OsispLabs.Lab5.Semaphore
