import OsispLabs.Lab7.Journal

/-!
# Locks and the menu

Which clients hold a lock at their menu. `saveRecord` returns without unlocking when a conflict is
declined, and both it and `getRecordNumb` unlock relative to an offset that a short `read` or a
negative record number has moved.
-/
namespace OsispLabs.Lab7
open Lib

variable {I : Type*} [DecidableEq I]

/-- The client is at an `fcntl` with `F_UNLCK`. -/
def Pc.unlocks : Pc → Bool
  | .printed | .loaded | .written => true
  | _ => false

/-- No client holds a lock at its menu. -/
def State.NoneAtMenu (s : State I) : Prop := ∀ i, (s.session i).pc = .menu → (s.locks i).Free

omit [DecidableEq I] in
/-- While all other clients are at their menus, a client gets every lock. -/
theorem State.NoneAtMenu.grantable {s : State I} (hs : s.NoneAtMenu) {i : I}
    (h : ∀ j, j ≠ i → (s.session j).pc = .menu) (range : ByteRange) (k : Lock) :
    Grantable s.locks i range k :=
  grantable_of_free (fun j hj => hs j (h j hj)) range k

/-- The locks of a client at its position; `got` is what its last `read` returned. -/
def Session.Holds (got : ℕ) (m : LockMap) (c : Session) : Prop :=
  match c.pc with
  | .closed | .menu | .printing | .loading => m.Free
  | .printLocked | .printed => m.Holds ⟨0, 0⟩ .read
  | .loadLocked => m.Holds ⟨c.offset, recordSize⟩ .read
  | .loaded => got ≤ recordSize ∧ ∃ start, m.Holds ⟨start, recordSize⟩ .read ∧
      c.offset = start + got
  | .saving => m.Free ∧ (0 ≤ c.currentRecord → c.offset = recordSize * c.currentRecord.toNat)
  | .saveLocked => m.Holds ⟨c.offset, recordSize⟩ .write ∧
      (0 ≤ c.currentRecord → c.offset = recordSize * c.currentRecord.toNat)
  | .prompting _ | .writing _ => ∃ start, m.Holds ⟨start, recordSize⟩ .write ∧
      start ≤ c.offset ∧ (0 ≤ c.currentRecord → start = recordSize * c.currentRecord.toNat)
  | .written => ∃ start, m.Holds ⟨start, recordSize⟩ .write ∧
      (0 ≤ c.currentRecord → c.offset = start) ∧
      (c.currentRecord < 0 → start + recordSize ≤ c.offset)

theorem covers_start (start : ℕ) : (⟨start, recordSize⟩ : ByteRange).Covers start :=
  ⟨Nat.le_refl start, .inr (Nat.lt_add_of_pos_right (Nat.succ_pos 160))⟩

namespace Journaled

/-- A client that unlocks has read a whole record in `getRecordNumb` and has a record number that
is not negative in `saveRecord`; its unlocking does not fail, and it declines no conflict. -/
def Releases (r : Journaled I) : Action I → Prop
  | .fcntl i =>
    ((r.state.session i).pc = .loaded → r.got i = recordSize) ∧
      ((r.state.session i).pc = .written → 0 ≤ (r.state.session i).currentRecord)
  | .fail i => (r.state.session i).pc.unlocks = false
  | .answer _ symbol => symbol ≠ 'n'.toUInt8
  | _ => True

instance (r : Journaled I) : (a : Action I) → Decidable (Releases r a)
  | .fcntl _ => inferInstanceAs (Decidable (_ ∧ _))
  | .fail _ => inferInstanceAs (Decidable (_ = _))
  | .answer _ _ => inferInstanceAs (Decidable (_ ≠ _))
  | .start .. | .print _ | .get .. | .rewrite .. | .save _ | .quit _ | .transfer .. =>
    isTrue trivial

variable [Fintype I] {r r' : Journaled I} {t : State I} {i : I} {a : Action I}

omit [Fintype I] in
theorem holds_self (h : State.Step r.state i a t) (hok : Releases r a)
    (hs : (r.state.session i).Holds (r.got i) (r.state.locks i)) :
    (t.session i).Holds ((r.note a).got i) (t.locks i) := by
  have hseek : ∀ offset (k : ℤ), 0 ≤ k → seek offset k = recordSize * k.toNat :=
    fun offset k hk => if_pos hk
  cases h with
  | start record newRecord hpc | print hpc | get n hpc hlt =>
    simp only [Session.Holds, hpc] at hs
    simp only [State.setSession_self, State.setSession_locks, State.goto_self, State.goto_locks]
    exact hs
  | getTooBig n hpc hbig | rewrite name address semester hpc =>
    simp only [Session.Holds, hpc] at hs
    simpa only [State.setSession_self, State.setSession_locks, Session.Holds, hpc] using hs
  | save hpc =>
    simp only [Session.Holds, hpc] at hs
    simp only [State.setSession_self]
    exact ⟨hs, hseek _ _⟩
  | quit hpc =>
    simp only [State.goto_self, Function.update_self]
    exact LockMap.empty_free
  | lockAll hpc hg | lockRead hpc hg =>
    simp only [Session.Holds, hpc] at hs
    simp only [State.goto_self, setLock_self]
    exact hs.set _ _
  | unlockAll hpc =>
    simp only [Session.Holds, hpc] at hs
    simp only [State.unlock_self, State.unlock_locks, setLock_self]
    exact hs.release
  | unlockRead hpc hle =>
    simp only [Session.Holds, hpc] at hs
    obtain ⟨-, start, hheld, hoffset⟩ := hs
    rw [hok.1 hpc] at hoffset
    simp only [State.unlock_self, State.unlock_locks, setLock_self, hoffset,
      Nat.add_sub_cancel]
    exact hheld.release
  | lockWrite hpc hg =>
    simp only [Session.Holds, hpc] at hs
    simp only [State.goto_self, setLock_self]
    exact ⟨hs.1.set _ _, hs.2⟩
  | unlockWrite hpc =>
    simp only [Session.Holds, hpc] at hs
    obtain ⟨start, hheld, hoffset, -⟩ := hs
    rw [← hoffset (hok.2 hpc)] at hheld
    simp only [State.unlock_self, State.unlock_locks, setLock_self]
    exact hheld.release
  | fail hpc =>
    have hcalls : (r.state.locks i).Free := by
      cases hold : (r.state.session i).pc <;> simp only [Session.Holds, hold] at hs <;>
        simp [Releases, hold, Pc.unlocks, Pc.calls] at hok hpc
      · exact hs
      · exact hs
      · exact hs.1
    simp only [State.goto_self]
    exact hcalls
  | readAll junk hpc =>
    simp only [Session.Holds, hpc] at hs
    simp only [State.setSession_self]
    exact hs
  | load junk hpc =>
    simp only [Session.Holds, hpc] at hs
    simp only [State.setSession_self, note, hpc, enter_got, fetch_got_self]
    refine ⟨?_, _, hs, rfl⟩
    rw [File.readAt_length]
    exact Nat.min_le_left _ _
  | compareSame junk hpc hsame | compareChanged junk hpc hdiff =>
    simp only [Session.Holds, hpc] at hs
    simp only [State.setSession_self]
    exact ⟨_, hs.1, Nat.le_add_right _ _, hs.2⟩
  | write junk prompted hpc =>
    simp only [Session.Holds, hpc] at hs
    obtain ⟨start, hheld, hle, haim⟩ := hs
    simp only [State.setSession_self]
    refine ⟨start, hheld, fun hk => ?_, fun hneg => ?_⟩
    · rw [hseek _ _ hk, haim hk]
    · have hmiss : ∀ offset, seek offset (r.state.session i).currentRecord = offset :=
        fun offset => if_neg (Int.not_le.mpr hneg)
      rw [hmiss, hmiss]
      exact Nat.add_le_add_right hle recordSize
  | answerNo symbol tmpRecord hpc hno => exact absurd hno hok
  | answerYes symbol tmpRecord hpc hyes =>
    simp only [Session.Holds, hpc] at hs
    simp only [State.goto_self]
    exact hs

omit [Fintype I] in
/-- A client that goes against the condition comes to its menu with a lock. -/
theorem not_free_of_not_releases (h : State.Step r.state i a t) (hnot : ¬ Releases r a)
    (hs : (r.state.session i).Holds (r.got i) (r.state.locks i)) :
    (t.session i).pc = .menu ∧ ¬ (t.locks i).Free := by
  cases h with
  | answerNo symbol tmpRecord hpc hno =>
    simp only [Session.Holds, hpc] at hs
    obtain ⟨start, hheld, -⟩ := hs
    simp only [State.setSession_self, true_and]
    exact hheld.not_free (by decide) (covers_start start)
  | fail hpc =>
    simp only [State.goto_self, true_and]
    cases hold : (r.state.session i).pc <;> simp only [Session.Holds, hold] at hs <;>
      simp [Releases, hold, Pc.unlocks] at hnot
    · exact hs.not_free (b := 0) (by decide) (by decide)
    · obtain ⟨-, start, hheld, -⟩ := hs
      exact hheld.not_free (by decide) (covers_start start)
    · obtain ⟨start, hheld, -⟩ := hs
      exact hheld.not_free (by decide) (covers_start start)
  | unlockRead hpc hle =>
    simp only [Session.Holds, hpc] at hs
    obtain ⟨hgot, start, hheld, hoffset⟩ := hs
    simp only [Releases, hpc, true_implies, reduceCtorEq, false_implies, and_true] at hnot
    simp only [State.unlock_self, State.unlock_locks, setLock_self, true_and]
    have hshort : r.got i < recordSize := Nat.lt_of_le_of_ne hgot hnot
    have hin : (⟨start, recordSize⟩ : ByteRange).Covers (r.state.session i).offset := by
      rw [hoffset]
      exact ⟨Nat.le_add_right _ _, .inr (Nat.add_lt_add_left hshort start)⟩
    refine hheld.not_free_of_release (by decide) hin fun hcovers => ?_
    rcases hcovers.2 with hzero | hlt
    · simp at hzero
    · simp only at hlt
      omega
  | unlockWrite hpc =>
    simp only [Session.Holds, hpc] at hs
    obtain ⟨start, hheld, -, hoffset⟩ := hs
    simp only [Releases, hpc, true_implies, reduceCtorEq, false_implies, true_and,
      Int.not_le] at hnot
    simp only [State.unlock_self, State.unlock_locks, setLock_self, true_and]
    refine hheld.not_free_of_release (by decide) (covers_start start) fun hcovers => ?_
    have hle := hcovers.1
    have hpast := hoffset hnot
    have hsize : 0 < recordSize := Nat.succ_pos 160
    simp only at hle
    omega
  | lockAll hpc hg | unlockAll hpc | lockRead hpc hg | lockWrite hpc hg =>
    exact absurd ⟨by simp [hpc], by simp [hpc]⟩ hnot
  | answerYes symbol tmpRecord hpc hyes => exact absurd hyes hnot
  | start | print | getTooBig | get | rewrite | save | quit | readAll | load | compareSame
  | compareChanged | write => exact absurd trivial hnot

theorem holds_step (hok : Releases r a)
    (hs : ∀ i, (r.state.session i).Holds (r.got i) (r.state.locks i)) (h : r.next a = some r') :
    ∀ i, (r'.state.session i).Holds (r'.got i) (r'.state.locks i) := by
  obtain ⟨hstate, hnote⟩ := next_eq_some h
  obtain ⟨i, hstep⟩ := State.next_step hstate
  intro j
  rw [hnote]
  by_cases hj : j = i
  · subst hj
    exact holds_self hstep hok (hs j)
  · obtain ⟨hgot, -⟩ := note_ne hstep hj
    simp only [hgot, hstep.session_ne hj, hstep.locks_ne hj]
    exact hs j

/-- In every interleaving, no client ever holds a lock at its menu exactly if all unlocking meets
the condition. -/
theorem run_noneAtMenu_iff (file₀ : File) (as : List (Action I)) (r : Journaled I)
    (hrun : exec next (initial file₀) as = some r) :
    Throughout next (fun r => r.state.NoneAtMenu) (initial file₀) as ↔
      StepsMeet next Releases (initial file₀) as := by
  apply throughout_iff_stepsMeet (I := fun r : Journaled I => ∀ i,
    (r.state.session i).Holds (r.got i) (r.state.locks i)) _ _ _ _ hrun
  · intro r a r' hs hok hnext
    exact holds_step hok hs hnext
  · intro r hs i hpc
    have hi := hs i
    simpa only [Session.Holds, hpc] using hi
  · intro r a r' hs hnot hnext hnone
    obtain ⟨i, hstep⟩ := State.next_step (next_eq_some hnext).1
    obtain ⟨hpc, hlocked⟩ := not_free_of_not_releases hstep hnot (hs i)
    exact hlocked (hnone i hpc)
  · intro i
    exact LockMap.empty_free

/-- A client prints the file, loads a record and saves it. -/
def printsAndSaves : List (Action Unit) :=
  [.start () .zero .zero, .print (), .fcntl (), .transfer () .zero, .fcntl (), .get () 0, .fcntl (),
    .transfer () .zero, .fcntl (), .rewrite () none none (some 3), .save (), .fcntl (),
    .transfer () .zero, .transfer () .zero, .fcntl ()]

theorem run_noneAtMenu_printsAndSaves :
    (exec next (initial Record.zero.bytes) printsAndSaves).isSome ∧
      Throughout next (fun r => r.state.NoneAtMenu) (initial Record.zero.bytes) printsAndSaves := by
  have hsome : (exec next (initial Record.zero.bytes) printsAndSaves).isSome := by decide +kernel
  obtain ⟨r, hrun⟩ := Option.isSome_iff_exists.mp hsome
  exact ⟨hsome, (run_noneAtMenu_iff _ _ r hrun).mpr (by decide +kernel)⟩

/-- Client `true` saves its edit, client `false` finds the conflict and answers `n`; then client
`true` wants to save once more. -/
def declinesConflict : List (Action Bool) :=
  [.start false .zero .zero, .get false 0, .fcntl false, .transfer false .zero, .fcntl false,
    .start true .zero .zero, .get true 0, .fcntl true, .transfer true .zero, .fcntl true,
    .rewrite true none none (some 3), .save true, .fcntl true, .transfer true .zero,
    .transfer true .zero, .fcntl true, .rewrite false none none (some 4), .save false,
    .fcntl false, .transfer false .zero, .answer false 'n'.toUInt8, .save true]

theorem declinesConflict_locks :
    (exec next (initial Record.zero.bytes) declinesConflict).map (fun r =>
        ((r.state.session false).pc, (r.state.locks false).get 0, (r.state.session true).pc,
          (r.state.next (.fcntl true)).isSome)) =
      some (.menu, .write, .saving, false) := by
  decide +kernel

/-- The client that declined is at its menu with the write lock, and the other waits for it. -/
theorem declined_not_noneAtMenu :
    ∃ r, exec next (initial Record.zero.bytes) declinesConflict = some r ∧
      ¬ r.state.NoneAtMenu ∧ (r.state.session true).pc = .saving ∧
      (r.state.next (.fcntl true)).isSome = false := by
  obtain ⟨r, hrun, hresult⟩ := Option.map_eq_some_iff.mp declinesConflict_locks
  simp only [Prod.mk.injEq] at hresult
  obtain ⟨hpc, hlock, hother, hwaits⟩ := hresult
  refine ⟨r, hrun, fun hnone => ?_, hother, hwaits⟩
  have hfree := hnone false hpc 0
  rw [hlock] at hfree
  cases hfree

end Journaled

end OsispLabs.Lab7
