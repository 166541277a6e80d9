import OsispLabs.Lib.Execution
import Mathlib.Logic.Function.Basic

/-!
# Deferred cancellation with a cleanup handler

Threads of a machine are cancelled one at a time by a thread that requests the cancellation and
waits for the end of its victim. The victim acts on the request at a cancellation point, then
runs a cleanup handler and ends. The handler is meant for a thread that owns a lock.
-/
namespace OsispLabs.Lib

/-- A thread: under a pending request, or with its cleanup handler about to run, or ended. -/
inductive Life where
  | running
  | requested
  | exiting
  | gone
  deriving DecidableEq, Repr

/-- A machine with the threads `T`, and what cancellation means for it. -/
structure Threads (S A T : Type*) where
  next : S → A → Option S
  /-- The thread that makes the step; `none` for the one that requests cancellations. -/
  thread : A → Option T
  /-- The requesting thread is not in the middle of something else. -/
  idle : S → Bool
  /-- The thread stands at the start of its loop. -/
  atStart : S → T → Bool
  /-- The thread acts on a request, if it stands at a cancellation point; the flag says whether
  it has been at the end of its loop before. -/
  act : S → T → Bool → Option S
  /-- The cleanup handler and the end of the thread. -/
  cleanup : S → T → S
  /-- The cancellation point is one at which the thread owns the lock when its handler runs. -/
  locking : S → T → Bool
  owns : S → T → Prop

/-- The machine with the life of every thread, whether it has completed a turn of its loop, and
the victim that is waited for. -/
structure Cancellable (S T : Type*) where
  base : S
  life : T → Life
  turned : T → Bool
  joining : Option T

namespace Cancellable

inductive Action (A T : Type*) where
  | step (a : A)
  | request (t : T)
  | act (t : T)
  | cleanup (t : T)
  deriving DecidableEq

variable {S A T : Type*} [DecidableEq T] (M : Threads S A T)

def start (s : S) : Cancellable S T := ⟨s, fun _ => .running, fun _ => false, none⟩

/-- The thread of a step has not ended and is not ending; the requesting thread is not waiting. -/
def alive (c : Cancellable S T) : Option T → Bool
  | none => c.joining.isNone
  | some t => c.life t = .running ∨ c.life t = .requested

def next (c : Cancellable S T) : Action A T → Option (Cancellable S T)
  | .step a =>
    if c.alive (M.thread a) then
      (M.next c.base a).map fun s =>
        match M.thread a with
        | none => { c with base := s }
        | some t =>
          { c with base := s, turned := Function.update c.turned t (c.turned t || M.atStart s t) }
    else none
  | .request t =>
    if M.idle c.base ∧ c.joining = none ∧ c.life t = .running then
      some { c with life := Function.update c.life t .requested, joining := some t }
    else none
  | .act t =>
    if c.life t = .requested then
      (M.act c.base t (c.turned t)).map fun s =>
        { c with base := s, life := Function.update c.life t .exiting }
    else none
  | .cleanup t =>
    if c.life t = .exiting then
      some { c with
        base := M.cleanup c.base t
        life := Function.update c.life t .gone
        joining := none }
    else none

/-- The rules of a machine whose lock discipline is `I`. -/
structure Disciplined (I : S → Prop) : Prop where
  next : ∀ s a u, I s → M.next s a = some u → I u
  act : ∀ s t b u, I s → M.locking s t = true → M.act s t b = some u → I u
  cleanup : ∀ s t, I s → M.owns s t → I (M.cleanup s t)
  act_owns : ∀ s t b u, M.act s t b = some u → (M.owns u t ↔ M.locking s t = true)
  next_other : ∀ s a u t, M.next s a = some u → M.thread a ≠ some t → M.owns s t → M.owns u t
  act_other : ∀ s t b u t', M.act s t b = some u → t' ≠ t → M.owns s t' → M.owns u t'
  cleanup_other : ∀ s t t', t' ≠ t → M.owns s t' → M.owns (M.cleanup s t) t'

/-- Every thread about to run its cleanup handler owns the lock. -/
def HandlersOwn (c : Cancellable S T) : Prop := ∀ t, c.life t = .exiting → M.owns c.base t

/-- The step does not act on a request at a point where the thread does not own the lock. -/
def ActsLocking (c : Cancellable S T) : Action A T → Prop
  | .act t => M.locking c.base t = true
  | .step _ | .request _ | .cleanup _ => True

variable {M} {I : S → Prop} {c d : Cancellable S T}

theorem next_step {a : A} (h : c.next M (.step a) = some d) :
    c.alive (M.thread a) = true ∧ M.next c.base a = some d.base ∧ d.life = c.life := by
  simp only [next] at h
  split at h
  · obtain ⟨s, hs, rfl⟩ := Option.map_eq_some_iff.mp h
    refine ⟨‹_›, ?_⟩
    split <;> exact ⟨hs, rfl⟩
  · cases h

theorem next_request {t : T} (h : c.next M (.request t) = some d) :
    c.life t = .running ∧ d.base = c.base ∧ d.life = Function.update c.life t .requested := by
  simp only [next] at h
  split at h
  case isTrue hguard =>
    obtain rfl := Option.some.inj h
    exact ⟨hguard.2.2, rfl, rfl⟩
  case isFalse => cases h

theorem next_act {t : T} (h : c.next M (.act t) = some d) :
    c.life t = .requested ∧ M.act c.base t (c.turned t) = some d.base ∧
      d.life = Function.update c.life t .exiting := by
  simp only [next] at h
  split at h
  · obtain ⟨s, hs, rfl⟩ := Option.map_eq_some_iff.mp h
    exact ⟨‹_›, hs, rfl⟩
  · cases h

theorem next_cleanup {t : T} (h : c.next M (.cleanup t) = some d) :
    c.life t = .exiting ∧ d.base = M.cleanup c.base t ∧
      d.life = Function.update c.life t .gone := by
  simp only [next] at h
  split at h
  · obtain rfl := Option.some.inj h
    exact ⟨‹_›, rfl, rfl⟩
  · cases h

/-- What holds of the threads with one life, after a step that changes the life of one thread. -/
theorem forall_life {P : T → Prop} {l x : Life} {t : T}
    (hlife : d.life = Function.update c.life t l) (hself : l = x → P t)
    (hother : ∀ u, u ≠ t → c.life u = x → P u) : ∀ u, d.life u = x → P u := by
  rw [hlife]
  apply (Function.forall_update_iff c.life fun u life => life = x → P u).mpr
  exact ⟨hself, hother⟩

theorem next_disciplined (hM : Disciplined M I) (a : Action A T) (hI : I c.base)
    (hown : c.HandlersOwn M) (hok : c.ActsLocking M a) (h : c.next M a = some d) :
    I d.base ∧ d.HandlersOwn M := by
  cases a with
  | step a =>
    obtain ⟨halive, hnext, hlife⟩ := next_step h
    refine ⟨hM.next _ _ _ hI hnext, fun t ht => ?_⟩
    rw [hlife] at ht
    refine hM.next_other _ _ _ t hnext (fun hthread => ?_) (hown t ht)
    simp [hthread, alive, ht] at halive
  | request t =>
    obtain ⟨hrun, hbase, hlife⟩ := next_request h
    rw [HandlersOwn, hbase]
    exact ⟨hI, forall_life hlife (by simp) fun t' _ => hown t'⟩
  | act t =>
    obtain ⟨hreq, hact, hlife⟩ := next_act h
    refine ⟨hM.act _ _ _ _ hI hok hact, forall_life hlife ?_ ?_⟩
    · intro _
      exact (hM.act_owns _ _ _ _ hact).mpr hok
    · intro t' hne ht'
      exact hM.act_other _ _ _ _ t' hact hne (hown t' ht')
  | cleanup t =>
    obtain ⟨hexit, hbase, hlife⟩ := next_cleanup h
    rw [HandlersOwn, hbase]
    refine ⟨hM.cleanup _ _ hI (hown t hexit), forall_life hlife (by simp) ?_⟩
    intro t' hne ht'
    exact hM.cleanup_other _ _ t' hne (hown t' ht')

theorem act_not_owns (hM : Disciplined M I) (a : Action A T) (hnot : ¬ c.ActsLocking M a)
    (h : c.next M a = some d) : ¬ d.HandlersOwn M := by
  cases a with
  | act t =>
    obtain ⟨hreq, hact, hlife⟩ := next_act h
    intro hown
    have howns := hown t (by simp [hlife])
    exact hnot ((hM.act_owns _ _ _ _ hact).mp howns)
  | step a => exact absurd trivial hnot
  | request t => exact absurd trivial hnot
  | cleanup t => exact absurd trivial hnot

/-- The cancellation rule: every handler of a run is run by the owner of the lock, and the lock
discipline holds throughout, exactly when all requests are acted on at points where the thread
owns the lock. -/
theorem handlers_own_iff {Q : S → Prop} (hM : Disciplined M I) (hQ : ∀ s, I s → Q s) {s : S}
    (hs : I s) {as : List (Action A T)} (hrun : exec (next M) (start s) as = some c) :
    Throughout (next M) (fun c => c.HandlersOwn M ∧ Q c.base) (start s) as ↔
      StepsMeet (next M) (ActsLocking M) (start s) as := by
  have hstart : I (start s : Cancellable S T).base ∧ (start s).HandlersOwn M := ⟨hs, nofun⟩
  have hkeep : ∀ (c : Cancellable S T) a d, I c.base ∧ c.HandlersOwn M → c.ActsLocking M a →
      c.next M a = some d → I d.base ∧ d.HandlersOwn M :=
    fun c a d hc hok h => next_disciplined hM a hc.1 hc.2 hok h
  have hgood : ∀ c : Cancellable S T, I c.base ∧ c.HandlersOwn M → c.HandlersOwn M ∧ Q c.base :=
    fun c hc => ⟨hc.2, hQ _ hc.1⟩
  have hbad : ∀ (c : Cancellable S T) a d, I c.base ∧ c.HandlersOwn M → ¬ c.ActsLocking M a →
      c.next M a = some d → ¬ (d.HandlersOwn M ∧ Q d.base) :=
    fun c a d _ hnot h hd => act_not_owns hM a hnot h hd.1
  exact throughout_iff_stepsMeet hkeep hgood hbad hstart hrun

end Cancellable

end OsispLabs.Lib
