import OsispLabs.Lab3.Family
import OsispLabs.Lab3.ChildTable

/-!
# Which children of `lab3.c` may print

`p n` bans all children, arms the timer and allows child `n`. The signals arrive later and the
loops of the children go on meanwhile, so a ban takes effect at the next test of
`permissionOutput`, and a child that both signals reach at once may take them in either order.
-/
namespace OsispLabs.Lab3
open Lib

/-- One while the loop has found its permission and not yet called `printf`. -/
def Child.Pc.begun : Child.Pc → ℕ
  | .reading _ => 1
  | .zero | .one | .testTimes | .testPermission | .resetting _ => 0

theorem Child.State.main_permissionOutput {s t : Child.State} {x : Child.Access}
    (h : s.main x = some t) : t.permissionOutput = s.permissionOutput := by
  cases x with
  | assign m =>
    simp only [main] at h
    split at h <;> cases h <;> cases m <;> rfl
  | read c =>
    simp only [main] at h
    split at h
    case h_1 => split at h <;> cases h; rfl
    all_goals cases h
  | reset v =>
    simp only [main] at h
    split at h
    case h_1 => split at h <;> cases h; cases v <;> rfl
    all_goals cases h
  | go =>
    simp only [main, go] at h
    split at h
    case h_3 | h_4 => cases h; rfl
    all_goals split at h <;> cases h; rfl

/-- A child that is banned begins no statistic. -/
theorem Child.State.main_begun {s t : Child.State} {x : Child.Access} (h : s.main x = some t)
    (hbanned : s.permissionOutput = false) :
    t.printed.length + t.pc.begun ≤ s.printed.length + s.pc.begun := by
  cases x with
  | assign m =>
    simp only [main] at h
    split at h <;> cases h <;> cases m <;> exact Nat.le_refl _
  | read c =>
    simp only [main] at h
    split at h
    case h_1 hpc =>
      split at h <;> cases h
      rw [hpc]
      exact Nat.le_refl _
    all_goals cases h
  | reset v =>
    simp only [main] at h
    split at h
    case h_1 hpc =>
      split at h <;> cases h
      rw [hpc]
      cases v <;> exact Nat.le_refl _
    all_goals cases h
  | go =>
    simp only [main, go] at h
    split at h
    case h_3 hpc =>
      cases h
      simp only [hpc]
      split <;> exact Nat.le_refl _
    case h_4 hpc =>
      cases h
      simp [hpc, hbanned, Child.Pc.begun]
    all_goals
      split at h <;> cases h
      simp_all [Child.Pc.begun]

namespace Process

/-- The statistics printed and the one begun. -/
def announced (p : Process) : ℕ := p.state.printed.length + p.state.pc.begun

/-- No `SIGUSR1` is on its way. -/
def Unasked (p : Process) : Prop := p.pending .SIGUSR1 = false

instance (p : Process) : Decidable p.Unasked := inferInstanceAs (Decidable (_ = _))

/-- Banned, or about to be, or terminated. -/
structure Muted (p : Process) : Prop where
  unasked : p.Unasked
  banned : p.pending .SIGUSR2 = true ∨ p.state.permissionOutput = false ∨ p.stage = .dead

/-- Allowed, or about to be, or terminated. -/
structure Granted (p : Process) : Prop where
  unbanned : p.pending .SIGUSR2 = false
  allowed : p.pending .SIGUSR1 = true ∨ p.state.permissionOutput = true ∨ p.stage = .dead

variable {p q : Process} {a : ProcessAction} {signum : Signal}

theorem next_deliver (h : p.next (.deliver signum) = some q) :
    p.pending signum = true ∧
      q = ⟨(p.handle signum).1, (p.handle signum).2, Function.update p.pending signum false⟩ := by
  simp only [next] at h
  split at h
  · cases h
    exact ⟨(‹_ ∧ _›).2, rfl⟩
  · cases h

theorem deliver_pending {other : Signal} (h : p.next (.deliver signum) = some q) :
    q.pending other = if other = signum then false else p.pending other := by
  obtain ⟨-, rfl⟩ := next_deliver h
  exact Function.update_apply p.pending signum false other

/-- Steps other than a delivery leave the signals and the permission. -/
theorem next_frame (h : p.next a = some q) (ha : ∀ signum, a ≠ .deliver signum) :
    q.pending = p.pending ∧ q.state.permissionOutput = p.state.permissionOutput ∧
      p.stage ≠ .dead := by
  cases a with
  | install =>
    simp only [next] at h
    split at h
    case h_1 hstage | h_2 hstage =>
      cases h
      exact ⟨rfl, rfl, by simp [hstage]⟩
    case h_3 | h_4 => cases h
  | deliver signum => exact absurd rfl (ha signum)
  | main x =>
    simp only [next] at h
    split at h
    · obtain ⟨state, hmain, rfl⟩ := Option.map_eq_some_iff.mp h
      exact ⟨rfl, Child.State.main_permissionOutput hmain, by simp_all⟩
    · cases h
  | alarm =>
    simp only [next] at h
    split at h
    · cases h
      exact ⟨rfl, rfl, by simp_all⟩
    · cases h

theorem handle_ban (p : Process) :
    (p.handle .SIGUSR2).1.permissionOutput = false ∨ (p.handle .SIGUSR2).2 = .dead := by
  cases hstage : p.stage <;> simp [handle, hstage]

theorem handle_allow (p : Process) :
    (p.handle .SIGUSR1).1.permissionOutput = true ∨ (p.handle .SIGUSR1).2 = .dead := by
  cases hstage : p.stage <;> simp [handle, hstage]

theorem handle_term (p : Process) : (p.handle .SIGTERM).2 = .dead := by
  cases hstage : p.stage <;> simp [handle]

/-- A process sends itself nothing. -/
theorem next_clear {other : Signal} (hp : p.pending other = false) (h : p.next a = some q) :
    q.pending other = false := by
  cases a with
  | deliver signum =>
    rw [deliver_pending h]
    split
    · rfl
    · exact hp
  | install | main | alarm =>
    obtain ⟨hpending, -, -⟩ := next_frame h nofun
    rw [hpending]
    exact hp

theorem next_unasked (p : Process) (a : ProcessAction) (q : Process) (hp : p.Unasked)
    (h : p.next a = some q) : q.Unasked := next_clear hp h

/-- A muted child stays muted: only `SIGUSR1` could change that. -/
theorem next_muted (p : Process) (a : ProcessAction) (q : Process) (hp : p.Muted)
    (h : p.next a = some q) : q.Muted := by
  refine ⟨next_unasked p a q hp.unasked h, ?_⟩
  cases a with
  | deliver signum =>
    obtain ⟨hpending, rfl⟩ := next_deliver h
    cases signum with
    | SIGUSR1 =>
      have hunasked : p.pending .SIGUSR1 = false := hp.unasked
      rw [hunasked] at hpending
      cases hpending
    | SIGUSR2 => exact .inr p.handle_ban
    | SIGTERM => exact .inr (.inr p.handle_term)
  | install | main | alarm =>
    obtain ⟨hpending, hpermission, hstage⟩ := next_frame h nofun
    rw [hpending, hpermission]
    rcases hp.banned with hsent | hbanned | hdead
    · exact .inl hsent
    · exact .inr (.inl hbanned)
    · exact absurd hdead hstage

theorem next_granted (p : Process) (a : ProcessAction) (q : Process) (hp : p.Granted)
    (h : p.next a = some q) : q.Granted := by
  refine ⟨next_clear hp.unbanned h, ?_⟩
  cases a with
  | deliver signum =>
    obtain ⟨hpending, rfl⟩ := next_deliver h
    cases signum with
    | SIGUSR1 => exact .inr p.handle_allow
    | SIGUSR2 =>
      rw [hp.unbanned] at hpending
      cases hpending
    | SIGTERM => exact .inr (.inr p.handle_term)
  | install | main | alarm =>
    obtain ⟨hpending, hpermission, hstage⟩ := next_frame h nofun
    rw [hpending, hpermission]
    rcases hp.allowed with hsent | hallowed | hdead
    · exact .inl hsent
    · exact .inr (.inl hallowed)
    · exact absurd hdead hstage

/-- What a muted child has begun to print is all that it prints. -/
theorem next_announced (hp : p.Muted) (hban : p.pending .SIGUSR2 = false)
    (h : p.next a = some q) : q.announced ≤ p.announced := by
  cases a with
  | install =>
    simp only [next] at h
    split at h
    case h_1 | h_2 =>
      cases h
      exact Nat.le_refl _
    case h_3 | h_4 => cases h
  | deliver signum =>
    obtain ⟨-, rfl⟩ := next_deliver h
    simp only [announced, handle]
    split <;> exact Nat.le_refl _
  | main x =>
    simp only [next] at h
    split at h
    · obtain ⟨state, hmain, rfl⟩ := Option.map_eq_some_iff.mp h
      have hbanned : p.state.permissionOutput = false := by
        rcases hp.banned with hsent | hbanned | hdead
        · simp [hban] at hsent
        · exact hbanned
        · simp_all
      exact Child.State.main_begun hmain hbanned
    · cases h
  | alarm =>
    simp only [next] at h
    split at h
    · cases h
      exact Nat.le_refl _
    · cases h

end Process

/-- Between `p n` and the `kill` that allows child `n`. -/
def Pc.selecting : Pc → Bool
  | .signalling _ (some _) | .arming _ | .resuming _ => true
  | .menu | .forking | .storing _ | .killing _ _ | .reaping _ _ | .updating _
  | .signalling _ none => false

theorem State.next_selecting {s t : State} {a : Action} (h : s.next a = some t)
    (hsel : t.pc.selecting = true) :
    (∃ n, a = .command (.p n) ∧ t = { s with pc := .signalling 0 (some n) }) ∨
      (∃ i n, a = .main ∧ s.pc = .signalling i (some n) ∧ i ≤ s.childCount ∧
        t = { s.kill i with pc := .signalling (i + 1) (some n) }) ∨
      (∃ i n, a = .main ∧ s.pc = .signalling i (some n) ∧ s.childCount < i ∧
        t = { s with pc := .arming n }) ∨
      (∃ n, a = .main ∧ s.pc = .arming n ∧ t = { s with armed := true, pc := .resuming n }) ∨
      (a = .alarm ∧ s.pc.selecting = true) := by
  cases a with
  | command c =>
    simp only [next] at h
    split at h
    case isFalse => cases h
    case isTrue hmenu =>
      cases c with
      | p n =>
        simp only [command] at h
        split at h
        · cases h
          exact .inl ⟨n, rfl, rfl⟩
        · cases h
          simp [hmenu, Pc.selecting] at hsel
      | plus =>
        cases h
        cases hsel
      | minus | k =>
        simp only [command] at h
        split at h <;> cases h <;> simp [hmenu, Pc.selecting] at hsel
      | s digits | g digits =>
        cases digits with
        | none =>
          cases h
          cases hsel
        | some digits =>
          simp only [command, signalOne] at h
          split_ifs at h <;> cases h <;> simp [kill, hmenu, Pc.selecting] at hsel
  | fork chpid =>
    simp only [next] at h
    split at h
    case isFalse => cases h
    case isTrue hpc =>
      cases chpid with
      | none =>
        cases h
        cases hsel
      | some chpid =>
        simp only at h
        split at h <;> cases h
        cases hsel
  | wait child =>
    simp only [next] at h
    split at h
    case h_2 => cases h
    case h_1 all i hpc =>
      have hafter : (afterWait all i).selecting = false := by
        unfold afterWait
        split <;> rfl
      cases child with
      | none =>
        simp only at h
        split at h <;> cases h
        rw [hafter] at hsel
        cases hsel
      | some child =>
        simp only at h
        split at h <;> cases h
        rw [hafter] at hsel
        cases hsel
  | main =>
    simp only [next, stepMain] at h
    split at h
    case h_1 | h_2 | h_3 => cases h
    case h_4 | h_5 | h_6 | h_7 | h_10 =>
      cases h
      cases hsel
    case h_8 i n hpc =>
      cases n with
      | none =>
        simp only at h
        split at h <;> cases h <;> cases hsel
      | some n =>
        simp only at h
        split at h <;> cases h
        · exact .inr (.inl ⟨i, n, rfl, hpc, ‹_›, rfl⟩)
        · exact .inr (.inr (.inl ⟨i, n, rfl, hpc, by omega, rfl⟩))
    case h_9 n hpc =>
      cases h
      exact .inr (.inr (.inr (.inl ⟨n, rfl, hpc, rfl⟩)))
  | alarm =>
    simp only [next] at h
    split at h <;> cases h
    have hpc : s.allowAllChildSendStats.pc = s.pc := by
      rw [allowAllChildSendStats, killFirst_frame]
    change s.allowAllChildSendStats.pc.selecting = true at hsel
    rw [hpc] at hsel
    exact .inr (.inr (.inr (.inr ⟨rfl, hsel⟩)))

namespace Family

/-- The child behind entry `j` of the table. -/
def child (f : Family) (j : ℤ) : Process := f.process (f.parent.childPidMas j)

/-- What `p` has reached by the place where the parent stands. -/
def Selecting (f : Family) : Prop :=
  match f.parent.pc with
  | .signalling i (some _) => f.granting = false ∧
      ∀ j, 0 ≤ j → j ≤ f.parent.childCount → (f.child j).Unasked ∧ (j < i → (f.child j).Muted)
  | .arming _ | .resuming _ => ∀ j, 0 ≤ j → j ≤ f.parent.childCount → (f.child j).Muted
  | .menu | .forking | .storing _ | .killing _ _ | .reaping _ _ | .updating _
  | .signalling _ none => True

/-- No `SIGUSR1` is on its way to a child when `p` is typed, and the timer of an earlier `p` does
not fire before the new one is done. -/
def Attentive (f : Family) : Action → Prop
  | .command (.p _) => ∀ i < (f.parent.childCount + 1).toNat, (f.child i).Unasked
  | .alarm => f.parent.pc.selecting = false
  | .command .plus | .command .minus | .command .k | .command (.s _) | .command (.g _) | .fork _
  | .wait _ | .main => True

/-- The steps of runs in which the table is kept and `p` is undisturbed. -/
def Undisturbed (f : Family) : FamilyAction → Prop
  | .parent a => f.parent.Orderly a ∧ f.Attentive a
  | .child _ _ => True

/-- The parent neither forks nor allows nor bans. -/
def Quiet (f : Family) : FamilyAction → Prop
  | .parent (.fork _) => False
  | .parent a => f.signum a = .SIGTERM ∨
      (f.parent.next a).all (fun t => (targets f.parent t).isEmpty) = true
  | .child _ _ => True

instance (f : Family) : (a : Action) → Decidable (f.Attentive a)
  | .command (.p _) => inferInstanceAs (Decidable (∀ i < _, _))
  | .alarm => inferInstanceAs (Decidable (_ = _))
  | .command .plus | .command .minus | .command .k | .command (.s _) | .command (.g _) | .fork _
  | .wait _ | .main => isTrue trivial

instance (f : Family) : (a : FamilyAction) → Decidable (f.Undisturbed a)
  | .parent _ => inferInstanceAs (Decidable (_ ∧ _))
  | .child _ _ => isTrue trivial

instance (f : Family) : (a : FamilyAction) → Decidable (f.Quiet a)
  | .parent (.fork _) => isFalse id
  | .parent (.command _) | .parent (.wait _) | .parent .main | .parent .alarm =>
    inferInstanceAs (Decidable (_ ∨ _))
  | .child _ _ => isTrue trivial

variable {f g : Family} {a : Action} {pid n : ℤ}

theorem targets_of_kills_eq {s t : State} (h : t.kills = s.kills) : targets s t = [] := by
  rw [targets, h, List.drop_length, List.map_nil]

theorem targets_kill (s : State) (i : ℤ) {t : State} (h : t.kills = (s.kill i).kills) :
    targets s t = [s.childPidMas i] := by
  rw [targets, h]
  simp [State.kill]

section Post

variable {process : ℤ → Process} {signum : Signal} {pids : List ℤ}

theorem post_pending (other : Signal) : (post process signum pids pid).pending other =
    if pid ∈ pids ∧ other = signum then true else (process pid).pending other := by
  unfold post
  by_cases hpid : pid ∈ pids
  · by_cases hother : other = signum
    · subst hother
      simp [hpid, Process.post]
    · simp [hpid, hother, Process.post]
  · simp [hpid]

theorem post_unasked (hp : (process pid).Unasked) (h : pid ∈ pids → signum ≠ .SIGUSR1) :
    (post process signum pids pid).Unasked := by
  rw [Process.Unasked, post_pending, if_neg]
  · exact hp
  · rintro ⟨hpid, hsignum⟩
    exact h hpid hsignum.symm

theorem post_muted (hp : (process pid).Muted) (h : pid ∈ pids → signum ≠ .SIGUSR1) :
    (post process signum pids pid).Muted := by
  refine ⟨post_unasked hp.unasked h, ?_⟩
  rw [post_pending, post_state, post_stage]
  split
  · exact .inl rfl
  · exact hp.banned

/-- A ban takes effect even if it is not yet delivered. -/
theorem post_ban (hp : (process pid).Unasked) (hpid : pid ∈ pids) :
    (post process .SIGUSR2 pids pid).Muted := by
  refine ⟨post_unasked hp (fun _ => by decide), .inl ?_⟩
  rw [post_pending, if_pos ⟨hpid, rfl⟩]

theorem post_granted (hp : (process pid).Granted) (h : pid ∈ pids → signum ≠ .SIGUSR2) :
    (post process signum pids pid).Granted := by
  refine ⟨?_, ?_⟩
  · rw [post_pending, if_neg]
    · exact hp.unbanned
    · rintro ⟨hpid, hsignum⟩
      exact h hpid hsignum.symm
  · rw [post_pending, post_state, post_stage]
    split
    · exact .inl rfl
    · exact hp.allowed

theorem post_allow (hp : (process pid).pending .SIGUSR2 = false) (hpid : pid ∈ pids) :
    (post process .SIGUSR1 pids pid).Granted := by
  refine ⟨?_, .inl ?_⟩
  · rw [post_pending, if_neg (by simp)]
    exact hp
  · rw [post_pending, if_pos ⟨hpid, rfl⟩]

end Post

/-- What every step of a child keeps is kept by the children's steps. -/
theorem process_next_child {P : Process → Prop}
    (hP : ∀ p a q, P p → p.next a = some q → P q) {chpid : ℤ} {b : ProcessAction}
    (h : f.next (.child chpid b) = some g) (hp : P (f.process pid)) : P (g.process pid) := by
  obtain ⟨p, hnext, rfl⟩ := next_child h
  by_cases hpid : pid = chpid
  · subst hpid
    change P (Function.update f.process pid p pid)
    rw [Function.update_self]
    exact hP _ b p hp hnext
  · change P (Function.update f.process chpid p pid)
    rw [Function.update_of_ne hpid]
    exact hp

/-- A step of the parent that sends nothing leaves the children as they are. -/
theorem process_eq_of_targets_nil (h : f.next (.parent a) = some g) (ha : ∀ c, a ≠ .fork c)
    (hnone : targets f.parent g.parent = []) : g.process = f.process := by
  obtain ⟨-, -, -, hprocess⟩ := next_parent h
  rw [hprocess, hnone]
  funext pid
  cases a with
  | fork c => exact absurd rfl (ha c)
  | command | wait | main | alarm => simp [post, fork]

theorem selecting_of_pc (h : f.parent.pc.selecting = false) : f.Selecting := by
  unfold Selecting
  split
  case h_1 hpc | h_2 hpc | h_3 hpc =>
    rw [hpc] at h
    cases h
  all_goals trivial

theorem selecting_next_child (hs : f.Selecting) {chpid : ℤ} {b : ProcessAction}
    (h : f.next (.child chpid b) = some g) : g.Selecting := by
  have hkeep {P : Process → Prop} (hP : ∀ p a q, P p → p.next a = some q → P q) (j : ℤ)
      (hp : P (f.child j)) : P (g.child j) := by
    have hsame : g.parent = f.parent := by
      obtain ⟨p, -, rfl⟩ := next_child h
      rfl
    rw [child, hsame]
    exact process_next_child hP h hp
  obtain ⟨p, -, hg⟩ := next_child h
  unfold Selecting at hs ⊢
  have hpc : g.parent = f.parent := by rw [hg]
  have hgranting : g.granting = f.granting := by rw [hg]
  rw [hpc, hgranting]
  split at hs
  case h_1 =>
    refine ⟨hs.1, fun j hj hle => ?_⟩
    obtain ⟨hunasked, hmuted⟩ := hs.2 j hj hle
    exact ⟨hkeep Process.next_unasked j hunasked,
      fun hlt => hkeep Process.next_muted j (hmuted hlt)⟩
  case h_2 | h_3 => exact fun j hj hle => hkeep Process.next_muted j (hs j hj hle)
  all_goals trivial

theorem selecting_next_parent (hs : f.Selecting) (hok : f.Attentive a)
    (h : f.next (.parent a) = some g) : g.Selecting := by
  by_cases hsel : g.parent.pc.selecting = true
  case neg => exact selecting_of_pc (Bool.eq_false_iff.mpr hsel)
  case pos =>
  obtain ⟨-, hnext, hgranting, hprocess⟩ := next_parent h
  rcases State.next_selecting hnext hsel with ⟨n, rfl, hg⟩ | ⟨i, n, rfl, hpc, hle, hg⟩ |
    ⟨i, n, rfl, hpc, hlt, hg⟩ | ⟨n, rfl, hpc, hg⟩ | ⟨rfl, hpc⟩
  · have hsame := process_eq_of_targets_nil h (by simp) (targets_of_kills_eq (by rw [hg]))
    have hpc : g.parent.pc = .signalling 0 (some n) := by rw [hg]
    simp only [Selecting, hpc]
    refine ⟨hgranting, fun j hj hle => ⟨?_, fun hneg => by omega⟩⟩
    have hle' : j ≤ f.parent.childCount := by simpa [hg] using hle
    have hunasked := hok j.toNat (by omega)
    rw [Int.toNat_of_nonneg hj] at hunasked
    rw [child, hsame, hg]
    exact hunasked
  · have htargets : targets f.parent g.parent = [f.parent.childPidMas i] :=
      targets_kill f.parent i (by rw [hg])
    have hpcg : g.parent.pc = .signalling (i + 1) (some n) := by rw [hg]
    simp only [Selecting, hpc] at hs
    simp only [Selecting, hpcg]
    have hsignum : f.signum .main = .SIGUSR2 := by
      simp [signum, hpc, hs.1]
    refine ⟨hgranting.trans hs.1, fun j hj hlej => ?_⟩
    have hchild : g.child j =
        post f.process .SIGUSR2 [f.parent.childPidMas i] (f.parent.childPidMas j) := by
      rw [child, hprocess, htargets, hsignum, hg]
      rfl
    have hcount : g.parent.childCount = f.parent.childCount := by
      rw [hg]
      rfl
    obtain ⟨hunasked, hmuted⟩ := hs.2 j hj (hcount ▸ hlej)
    rw [hchild]
    refine ⟨post_unasked hunasked (fun _ => by decide), fun hlt => ?_⟩
    by_cases hji : j = i
    · subst hji
      exact post_ban hunasked List.mem_cons_self
    · exact post_muted (hmuted (by omega)) (fun _ => by decide)
  · have hsame := process_eq_of_targets_nil h (by simp) (targets_of_kills_eq (by rw [hg]))
    have hpcg : g.parent.pc = .arming n := by rw [hg]
    simp only [Selecting, hpc] at hs
    simp only [Selecting, hpcg]
    intro j hj hle
    have hle' : j ≤ f.parent.childCount := by simpa [hg] using hle
    have hmuted := (hs.2 j hj hle').2 (by omega)
    rw [child, hsame, hg]
    exact hmuted
  · have hsame := process_eq_of_targets_nil h (by simp) (targets_of_kills_eq (by rw [hg]))
    have hpcg : g.parent.pc = .resuming n := by rw [hg]
    simp only [Selecting, hpc] at hs
    simp only [Selecting, hpcg]
    intro j hj hle
    have hle' : j ≤ f.parent.childCount := by simpa [hg] using hle
    have hmuted := hs j hj hle'
    rw [child, hsame, hg]
    exact hmuted
  · rw [Attentive, hpc] at hok
    cases hok

theorem start_lawful_selecting : start.parent.Lawful ∧ start.Selecting :=
  ⟨State.start_lawful, trivial⟩

theorem next_lawful_selecting (f : Family) (a : FamilyAction) (g : Family)
    (hf : f.parent.Lawful ∧ f.Selecting) (hok : f.Undisturbed a) (h : f.next a = some g) :
    g.parent.Lawful ∧ g.Selecting := by
  cases a with
  | parent a =>
    obtain ⟨-, hnext, -, -⟩ := next_parent h
    exact ⟨State.next_lawful _ a _ hf.1 hok.1 hnext, selecting_next_parent hf.2 hok.2 h⟩
  | child chpid b =>
    have hparent : g.parent = f.parent := by
      obtain ⟨p, -, rfl⟩ := next_child h
      rfl
    rw [hparent]
    exact ⟨hf.1, selecting_next_child hf.2 h⟩

/-- When the parent has allowed child `n`, it is the only one. -/
theorem resume_singlesOut (hl : f.parent.Lawful) (hs : f.Selecting)
    (hpc : f.parent.pc = .resuming n) (h : f.next (.parent .main) = some g) {j : ℤ} (hj : 0 ≤ j)
    (hle : j ≤ f.parent.childCount) :
    (j ≠ n → (g.process (f.parent.childPidMas j)).Muted) ∧
      (j = n → (f.child n).pending .SIGUSR2 = false →
        (g.process (f.parent.childPidMas j)).Granted) := by
  obtain ⟨-, hnext, -, hprocess⟩ := next_parent h
  have hg : g.parent = { f.parent.kill n with pc := .menu } := by
    simp only [State.next, State.stepMain, hpc] at hnext
    exact (Option.some.inj hnext).symm
  have htargets : targets f.parent g.parent = [f.parent.childPidMas n] :=
    targets_kill f.parent n (by rw [hg])
  have hsignum : f.signum .main = .SIGUSR1 := by simp only [signum, hpc]
  have hplaced : 0 ≤ n ∧ n ≤ f.parent.childCount := by
    have hplaced := hl.placed
    rwa [State.Placed, hpc] at hplaced
  have hlisted : f.parent.listed = f.parent.childCount + 1 := by simp only [State.listed, hpc]
  simp only [Selecting, hpc] at hs
  rw [hprocess, htargets, hsignum]
  constructor
  · intro hne
    refine post_muted (hs j hj hle) fun hmem => ?_
    have heq := List.mem_singleton.mp hmem
    exact absurd (hl.lists.distinct j n hj (by omega) hplaced.1 (by omega) heq) hne
  · rintro rfl hban
    exact post_allow hban List.mem_cons_self

/-- While the parent is quiet, its steps leave the permissions and their signals alone. -/
theorem process_next_quiet {P : Process → Prop} (hP : ∀ p a q, P p → p.next a = some q → P q)
    (hterm : ∀ process pids pid, P (process pid) → P (post process .SIGTERM pids pid))
    {a : FamilyAction} (hok : f.Quiet a) (h : f.next a = some g) (hp : P (f.process pid)) :
    P (g.process pid) := by
  cases a with
  | child chpid b => exact process_next_child hP h hp
  | parent a =>
    cases a with
    | fork c => exact hok.elim
    | command | wait | main | alarm =>
      rcases hok with hsignum | hnone
      · obtain ⟨-, -, -, hprocess⟩ := next_parent h
        rw [hprocess, hsignum]
        exact hterm f.process _ pid hp
      · obtain ⟨-, hnext, -, -⟩ := next_parent h
        rw [hnext] at hnone
        rw [process_eq_of_targets_nil h (by simp) (List.isEmpty_iff.mp hnone)]
        exact hp

theorem process_run_quiet {P : Process → Prop} (hP : ∀ p a q, P p → p.next a = some q → P q)
    (hterm : ∀ process pids pid, P (process pid) → P (post process .SIGTERM pids pid))
    {as : List FamilyAction} (hquiet : StepsMeet next Quiet f as) (hrun : exec next f as = some g)
    (hp : P (f.process pid)) : P (g.process pid) :=
  exec_invariant_of_steps (I := fun f : Family => P (f.process pid))
    (fun _ _ _ hf hok h => process_next_quiet hP hterm hok h hf) hp hquiet hrun

/-- Child `pid` prints no more between `g` and `h` than what it had begun in `g`, where no ban was
left on its way. -/
def Silenced (pid : ℤ) (g h : Family) : Prop :=
  (g.process pid).pending .SIGUSR2 = false →
    (h.process pid).state.printed.length ≤ (g.process pid).announced

/-- Child `pid` may print once no signal to it is on its way, unless it has terminated. -/
def Speaks (pid : ℤ) (h : Family) : Prop :=
  (h.process pid).Unasked → (h.process pid).stage ≠ .dead →
    (h.process pid).state.permissionOutput = true

theorem silenced_of_quiet {h : Family} (hg : (g.process pid).Muted) {cs : List FamilyAction}
    (hquiet : StepsMeet next Quiet g cs) (hrun : exec next g cs = some h) : Silenced pid g h := by
  intro hban
  have hkept : (h.process pid).Muted ∧ (h.process pid).pending .SIGUSR2 = false ∧
      (h.process pid).announced ≤ (g.process pid).announced := by
    refine process_run_quiet (P := fun p => p.Muted ∧ p.pending .SIGUSR2 = false ∧
      p.announced ≤ (g.process pid).announced) ?_ ?_ hquiet hrun ⟨hg, hban, Nat.le_refl _⟩
    · rintro p b q ⟨hmuted, hclear, hle⟩ hnext
      exact ⟨Process.next_muted p b q hmuted hnext, Process.next_clear hclear hnext,
        (Process.next_announced hmuted hclear hnext).trans hle⟩
    · rintro process pids pid ⟨hmuted, hclear, hle⟩
      refine ⟨post_muted hmuted (fun _ => by decide), ?_, ?_⟩
      · rw [post_pending, if_neg (by simp)]
        exact hclear
      · rw [Process.announced, post_state]
        exact hle
  exact (Nat.le_add_right _ _).trans hkept.2.2

theorem speaks_of_granted (hp : (f.process pid).Granted) : Speaks pid f := by
  intro hunasked halive
  rcases hp.allowed with hsent | hallowed | hdead
  · rw [hunasked] at hsent
    cases hsent
  · exact hallowed
  · exact absurd hdead halive

/-- After an undisturbed `p n`, and until the parent forks, allows or bans again, every other child
prints at most what it had begun when its ban arrived; child `n` may print if its ban arrived
before it was allowed. -/
theorem run_singlesOut (as bs cs : List FamilyAction) {f f' g h : Family} {n : ℤ}
    (hok : StepsMeet next Undisturbed start as) (hrun : exec next start as = some f)
    (hpc : f.parent.pc = .resuming n) (hresume : f.next (.parent .main) = some f')
    (hquiet : StepsMeet next Quiet f' bs) (hbs : exec next f' bs = some g)
    (hquiet' : StepsMeet next Quiet g cs) (hcs : exec next g cs = some h) :
    (∀ j, 0 ≤ j → j ≤ f.parent.childCount → j ≠ n →
      Silenced (f.parent.childPidMas j) g h) ∧
    ((f.child n).pending .SIGUSR2 = false → Speaks (f.parent.childPidMas n) g) := by
  obtain ⟨hl, hs⟩ := exec_invariant_of_steps next_lawful_selecting start_lawful_selecting hok hrun
  constructor
  · intro j hj hle hne
    have hmuted := (resume_singlesOut hl hs hpc hresume hj hle).1 hne
    have hlater := process_run_quiet Process.next_muted
      (fun _ _ _ hp => post_muted hp (fun _ => by decide)) hquiet hbs hmuted
    exact silenced_of_quiet hlater hquiet' hcs
  · intro hban
    have hplaced : 0 ≤ n ∧ n ≤ f.parent.childCount := by
      have hplaced := hl.placed
      rwa [State.Placed, hpc] at hplaced
    have hgranted := (resume_singlesOut hl hs hpc hresume hplaced.1 hplaced.2).2 rfl hban
    have hlater := process_run_quiet Process.next_granted
      (fun _ _ _ hp => post_granted hp (fun _ => by decide)) hquiet hbs hgranted
    exact speaks_of_granted hlater

/-- Two children in their loops, of which `p 1` picks the second. -/
def picksSecond : List FamilyAction :=
  [.parent (.command .plus), .parent (.fork (some 100)), .parent .main, .child 100 .install,
    .child 100 .install, .parent (.command .plus), .parent (.fork (some 101)), .parent .main,
    .child 101 .install, .child 101 .install, .parent (.command (.p 1)), .parent .main,
    .parent .main, .child 101 (.deliver .SIGUSR2), .parent .main, .parent .main]

theorem run_singlesOut_second :
    ∃ f f' g h : Family, exec next start picksSecond = some f ∧
      f.next (.parent .main) = some f' ∧
      exec next f' [.child 100 (.main (.assign .first)), .child 100 (.deliver .SIGUSR2),
        .child 101 (.deliver .SIGUSR1)] = some g ∧
      exec next g [.child 100 .alarm, .child 100 (.main (.assign .second)),
        .child 101 (.main (.assign .first))] = some h ∧
      (∀ j, 0 ≤ j → j ≤ f.parent.childCount → j ≠ 1 →
        Silenced (f.parent.childPidMas j) g h) ∧
      ((f.child 1).pending .SIGUSR2 = false → Speaks (f.parent.childPidMas 1) g) :=
  ⟨_, _, _, _, rfl, rfl, rfl, rfl, run_singlesOut picksSecond
    [.child 100 (.main (.assign .first)), .child 100 (.deliver .SIGUSR2),
      .child 101 (.deliver .SIGUSR1)]
    [.child 100 .alarm, .child 100 (.main (.assign .second)), .child 101 (.main (.assign .first))]
    (by decide) rfl rfl rfl (by decide) rfl (by decide) rfl⟩

end Family

end OsispLabs.Lab3
