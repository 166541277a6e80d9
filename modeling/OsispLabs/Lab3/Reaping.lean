import OsispLabs.Lab3.ChildTable
import OsispLabs.Lab3.Family
import Mathlib.Data.List.Nodup
import Mathlib.Data.List.Perm.Subperm

/-!
# No child of `lab3.c` is forgotten

In orderly runs the table does not only list children of the parent, it lists all of them: what
`-`, `k` and `q` remove from it has terminated and has been reaped.
-/
namespace OsispLabs.Lab3
open Lib

namespace State

/-- The number of children that the parent has forked and not yet reaped. -/
def unreaped (s : State) : ℤ :=
  match s.pc with
  | .forking | .updating false => s.childCount
  | .killing _ i | .reaping _ i => i + 1
  | .updating true => 0
  | .menu | .storing _ | .signalling _ _ | .arming _ | .resuming _ => s.childCount + 1

/-- No child is counted twice or not at all. -/
structure Counted (s : State) : Prop where
  nodup : s.children.Nodup
  length : (s.children.length : ℤ) = s.unreaped

variable {s t : State}

theorem start_counted : start.Counted := ⟨List.nodup_nil, rfl⟩

theorem Counted.frame (hs : s.Counted) (hchildren : t.children = s.children)
    (hunreaped : t.unreaped = s.unreaped) : t.Counted where
  nodup := hchildren ▸ hs.nodup
  length := by
    rw [hchildren, hunreaped]
    exact hs.length

theorem Counted.signalOne (hs : s.Counted) (hmenu : s.pc = .menu) {digits : Option ℕ}
    (h : s.signalOne digits = some t) : t.Counted := by
  cases digits with
  | some d =>
    simp only [State.signalOne] at h
    split_ifs at h
    · cases h
      exact hs.frame rfl rfl
    · cases h
      exact hs
  | none =>
    cases h
    exact hs.frame rfl (by simp only [unreaped, hmenu])

theorem Counted.command (hs : s.Counted) (hl : s.Lawful) (hmenu : s.pc = .menu) {c : Command}
    (h : s.command c = some t) : t.Counted := by
  have hunreaped : s.unreaped = s.childCount + 1 := by simp only [unreaped, hmenu]
  have hlow := hl.low
  cases c with
  | plus =>
    cases h
    exact hs.frame rfl hunreaped.symm
  | minus =>
    simp only [State.command] at h
    split_ifs at h
    · cases h
      exact hs.frame rfl hunreaped.symm
    · cases h
      exact hs
  | k =>
    simp only [State.command] at h
    split_ifs at h
    · cases h
      exact hs.frame rfl hunreaped.symm
    · cases h
      refine hs.frame rfl ?_
      change 0 = s.unreaped
      omega
  | s digits => exact hs.signalOne hmenu h
  | g digits => exact hs.signalOne hmenu h
  | p n =>
    simp only [State.command] at h
    split_ifs at h
    · cases h
      exact hs.frame rfl hunreaped.symm
    · cases h
      exact hs

theorem Counted.stepMain (hs : s.Counted) (h : s.stepMain = some t) : t.Counted := by
  unfold State.stepMain at h
  split at h
  case h_1 | h_2 | h_3 => cases h
  case h_4 hpc | h_5 hpc | h_9 hpc | h_10 hpc =>
    cases h
    exact hs.frame rfl (by simp only [unreaped, hpc, store, kill])
  case h_6 hpc =>
    cases h
    refine hs.frame rfl ?_
    simp only [unreaped, hpc]
    omega
  case h_7 hpc =>
    cases h
    exact hs.frame rfl (by simp only [unreaped, hpc]; rfl)
  case h_8 i n hpc =>
    split_ifs at h
    · cases h
      exact hs.frame rfl (by simp only [unreaped, hpc, kill])
    · cases n <;> cases h <;> exact hs.frame rfl (by simp only [unreaped, hpc])

theorem Counted.fork (hs : s.Counted) {chpid : Option ℤ} (hok : s.Orderly (.fork chpid))
    (h : s.next (.fork chpid) = some t) : t.Counted := by
  simp only [next] at h
  split at h
  case isFalse => cases h
  case isTrue hpc =>
    have hlength := hs.length
    simp only [unreaped, hpc] at hlength
    cases chpid with
    | none => exact absurd rfl hok
    | some chpid =>
      simp only at h
      split at h
      case isFalse => cases h
      case isTrue hnew =>
        cases h
        refine ⟨List.nodup_cons.mpr ⟨hnew.2, hs.nodup⟩, ?_⟩
        simp only [unreaped, List.length_cons]
        push_cast
        omega

/-- A `wait` removes one child from the list and its entry from the count. -/
theorem Counted.wait (hs : s.Counted) (hl : s.Lawful) {child : Option (ℤ × ℤ)}
    (h : s.next (.wait child) = some t) : t.Counted := by
  have hplaced := hl.placed
  have hlists := hl.lists
  have hlength := hs.length
  simp only [next] at h
  split at h
  case h_2 => cases h
  case h_1 all i hpc =>
    simp only [Placed, listed, unreaped, hpc] at hplaced hlists hlength
    obtain ⟨hlow, hle, hone⟩ := hplaced
    have hafter (u : State) (hcount : u.childCount = s.childCount) :
        ({ u with pc := afterWait all i } : State).unreaped = i := by
      unfold afterWait
      split
      · simp only [unreaped]
        omega
      case isFalse hlast =>
        cases all with
        | false => simp only [unreaped, hcount, hone rfl]
        | true =>
          simp only [true_and] at hlast
          simp only [unreaped]
          omega
    cases child with
    | none =>
      simp only at h
      split at h
      case isFalse => cases h
      case isTrue hnone =>
        have hmem := hlists.owned i hlow (by omega)
        rw [hnone] at hmem
        cases hmem
    | some child =>
      obtain ⟨chpid, status⟩ := child
      simp only at h
      split at h
      case isFalse => cases h
      case isTrue hmem =>
        cases h
        refine ⟨hs.nodup.filter _, ?_⟩
        rw [hafter { s.store i status with children := s.children.filter (· ≠ chpid) } rfl]
        have hcount := List.length_erase_of_mem hmem
        rw [hs.nodup.erase_eq_filter] at hcount
        have hsame : s.children.filter (· ≠ chpid) = s.children.filter (· != chpid) := by
          refine List.filter_congr fun pid _ => ?_
          by_cases hpid : pid = chpid <;> simp [hpid]
        simp only [hsame]
        have hpos := List.length_pos_of_mem hmem
        omega

theorem next_counted (s : State) (a : Action) (t : State) (hs : s.Lawful ∧ s.Counted)
    (hok : s.Orderly a) (h : s.next a = some t) : t.Lawful ∧ t.Counted := by
  refine ⟨next_lawful s a t hs.1 hok h, ?_⟩
  cases a with
  | command c =>
    simp only [next] at h
    split at h
    · exact hs.2.command hs.1 ‹_› h
    · cases h
  | fork chpid => exact hs.2.fork hok h
  | wait child => exact hs.2.wait hs.1 h
  | main => exact hs.2.stepMain h
  | alarm =>
    simp only [next] at h
    split at h
    · cases h
      have hframe := killFirst_frame s (s.childCount + 1).toNat
      rw [allowAllChildSendStats, hframe]
      exact hs.2.frame rfl rfl
    · cases h

/-- Only `fork` and `wait` change who is a child. -/
theorem next_children {a : Action} (h : s.next a = some t) :
    (∃ chpid, a = .fork (some chpid) ∧ t.children = chpid :: s.children) ∨
      (∃ chpid status, a = .wait (some (chpid, status)) ∧
        t.children = s.children.filter (· ≠ chpid)) ∨
      ((∀ chpid, a ≠ .fork (some chpid)) ∧ t.children = s.children) := by
  cases a with
  | command c =>
    simp only [next] at h
    split at h
    case isFalse => cases h
    case isTrue =>
      refine .inr (.inr ⟨by simp, ?_⟩)
      cases c with
      | plus =>
        cases h
        rfl
      | minus | k | p n =>
        simp only [State.command] at h
        split at h <;> cases h <;> rfl
      | s digits | g digits =>
        cases digits with
        | none =>
          cases h
          rfl
        | some digits =>
          simp only [State.command, State.signalOne] at h
          split_ifs at h <;> cases h <;> rfl
  | fork chpid =>
    simp only [next] at h
    split at h
    case isFalse => cases h
    case isTrue =>
      cases chpid with
      | none =>
        cases h
        exact .inr (.inr ⟨by simp, rfl⟩)
      | some chpid =>
        simp only at h
        split at h <;> cases h
        exact .inl ⟨chpid, rfl, rfl⟩
  | wait child =>
    simp only [next] at h
    split at h
    case h_2 => cases h
    case h_1 all i hpc =>
      cases child with
      | none =>
        simp only at h
        split at h <;> cases h
        exact .inr (.inr ⟨by simp, rfl⟩)
      | some child =>
        obtain ⟨chpid, status⟩ := child
        simp only at h
        split at h <;> cases h
        exact .inr (.inl ⟨chpid, status, rfl, rfl⟩)
  | main =>
    refine .inr (.inr ⟨by simp, ?_⟩)
    simp only [next, State.stepMain] at h
    split at h
    case h_1 | h_2 | h_3 => cases h
    case h_4 | h_5 | h_6 | h_7 | h_9 | h_10 =>
      cases h
      rfl
    case h_8 i n hpc =>
      split_ifs at h
      · cases h
        rfl
      · cases n <;> cases h <;> rfl
  | alarm =>
    simp only [next] at h
    split at h <;> cases h
    refine .inr (.inr ⟨by simp, ?_⟩)
    rw [allowAllChildSendStats, killFirst_frame]

/-- The process ids up to entry `childCount`. -/
def entries (s : State) : List ℤ :=
  (List.range (s.childCount + 1).toNat).map fun i : ℕ => s.childPidMas i

/-- At the menu, the unreaped children are the entries of the table. -/
theorem Counted.perm (hs : s.Counted) (hl : s.Lawful) (hmenu : s.pc = .menu) :
    s.children.Perm s.entries := by
  have hlow := hl.low
  have hlists := hl.lists
  have hlength := hs.length
  simp only [listed, unreaped, hmenu] at hlists hlength
  have hnodup : s.entries.Nodup := by
    refine List.Nodup.map_on (fun i hi j hj heq => ?_) List.nodup_range
    rw [List.mem_range] at hi hj
    have hij := hlists.distinct i j (by omega) (by omega) (by omega) (by omega) heq
    omega
  have hsub : s.entries ⊆ s.children := by
    intro pid hpid
    obtain ⟨i, hi, rfl⟩ := List.mem_map.mp hpid
    rw [List.mem_range] at hi
    exact hlists.owned i (by omega) (by omega)
  have hle : s.children.length ≤ s.entries.length := by
    rw [entries, List.length_map, List.length_range]
    omega
  exact ((List.subperm_of_subset hnodup hsub).perm_of_length_le hle).symm

end State

namespace Family

/-- The parent's steps are orderly. -/
def Tidy (f : Family) : FamilyAction → Prop
  | .parent a => f.parent.Orderly a
  | .child _ _ => True

instance (f : Family) : (a : FamilyAction) → Decidable (f.Tidy a)
  | .parent _ => inferInstanceAs (Decidable (State.Orderly _ _))
  | .child _ _ => isTrue trivial

/-- A process that has not terminated is an unreaped child. -/
def Parented (f : Family) : Prop :=
  ∀ pid, (f.process pid).stage ≠ .dead → pid ∈ f.parent.children

variable {f g : Family}

theorem parented_next_child (hf : f.Parented) {chpid : ℤ} {b : ProcessAction}
    (h : f.next (.child chpid b) = some g) : g.Parented := by
  obtain ⟨p, hp, rfl⟩ := next_child h
  intro pid halive
  by_cases hpid : pid = chpid
  · subst hpid
    refine hf pid fun hdead => ?_
    cases b <;> simp [Process.next, hdead] at hp
  · change (Function.update f.process chpid p pid).stage ≠ .dead at halive
    rw [Function.update_of_ne hpid] at halive
    exact hf pid halive

theorem parented_next_parent (hf : f.Parented) {a : Action} (h : f.next (.parent a) = some g) :
    g.Parented := by
  obtain ⟨hreapable, hnext, -, hprocess⟩ := next_parent h
  intro pid halive
  rw [hprocess, post_stage] at halive
  rcases State.next_children hnext with ⟨chpid, rfl, hg⟩ | ⟨chpid, status, rfl, hg⟩ | ⟨hfork, hg⟩
  · rw [hg]
    by_cases hpid : pid = chpid
    · rw [hpid]
      exact List.mem_cons_self
    · rw [fork, Function.update_of_ne hpid] at halive
      exact List.mem_cons_of_mem _ (hf pid halive)
  · have hdead : (f.process chpid).stage = .dead := hreapable
    have hne : pid ≠ chpid := by
      rintro rfl
      exact halive hdead
    rw [hg, List.mem_filter]
    exact ⟨hf pid halive, decide_eq_true hne⟩
  · have hsame : fork f.process a = f.process := by
      unfold fork
      split
      · exact absurd rfl (hfork _)
      all_goals rfl
    rw [hsame] at halive
    rw [hg]
    exact hf pid halive

theorem next_tidy (f : Family) (a : FamilyAction) (g : Family)
    (hf : (f.parent.Lawful ∧ f.parent.Counted) ∧ f.Parented) (hok : f.Tidy a)
    (h : f.next a = some g) : (g.parent.Lawful ∧ g.parent.Counted) ∧ g.Parented := by
  cases a with
  | parent a =>
    obtain ⟨-, hnext, -, -⟩ := next_parent h
    exact ⟨State.next_counted _ a _ hf.1 hok hnext, parented_next_parent hf.2 h⟩
  | child chpid b =>
    have hparent : g.parent = f.parent := by
      obtain ⟨p, -, rfl⟩ := next_child h
      rfl
    rw [hparent]
    exact ⟨hf.1, parented_next_child hf.2 h⟩

/-- In every orderly run of the parent and its children, whenever the parent is at its menu, the
table lists all unreaped children and no other process is left running. -/
theorem run_allListed (as : List FamilyAction) {f : Family} (hok : StepsMeet next Tidy start as)
    (hrun : exec next start as = some f) (hmenu : f.parent.pc = .menu) :
    f.parent.children.Perm f.parent.entries ∧
      ∀ pid, (f.process pid).stage ≠ .dead → pid ∈ f.parent.entries := by
  have hstart : (start.parent.Lawful ∧ start.parent.Counted) ∧ start.Parented :=
    ⟨⟨State.start_lawful, State.start_counted⟩, fun _ halive => absurd rfl halive⟩
  obtain ⟨⟨hl, hs⟩, hf⟩ := exec_invariant_of_steps next_tidy hstart hok hrun
  have hperm := hs.perm hl hmenu
  exact ⟨hperm, fun pid halive => hperm.mem_iff.mp (hf pid halive)⟩

/-- Two children, one of which a signal terminates before its handler is installed, and `k`. -/
def removesBoth : List FamilyAction :=
  [.parent (.command .plus), .parent (.fork (some 100)), .parent .main, .parent (.command .plus),
    .parent (.fork (some 101)), .parent .main, .child 101 .install,
    .parent (.command (.g (some 0))), .child 100 (.deliver .SIGUSR1), .parent (.command .k),
    .parent .main, .child 101 (.deliver .SIGTERM), .parent (.wait (some (101, 15))), .parent .main,
    .parent (.wait (some (100, 10))), .parent .main]

theorem run_allListed_removed :
    ∃ f, exec next start removesBoth = some f ∧ f.parent.children.Perm f.parent.entries ∧
      ∀ pid, (f.process pid).stage ≠ .dead → pid ∈ f.parent.entries :=
  ⟨_, rfl, run_allListed removesBoth (by decide) rfl rfl⟩

end Family

end OsispLabs.Lab3
