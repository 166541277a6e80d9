import OsispLabs.Lab3.Commands
import OsispLabs.Lab3.Statistics

/-!
# `lab3.c` and its children

The parent's `kill` calls leave signals pending at the children, which take them one at a time and
in any order; a second signal of a kind merges with the first. A child that has not yet installed
the handler for a signal is terminated by it.
-/
namespace OsispLabs.Lab3
open Lib

/-- The signals that the parent sends. -/
inductive Signal where
  | SIGUSR1
  | SIGUSR2
  | SIGTERM
  deriving DecidableEq, Repr

/-- Before the handler for `SIGUSR1`, before the one for `SIGUSR2`, in the loop, or terminated. -/
inductive Stage where
  | starting
  | allowing
  | looping
  | dead
  deriving DecidableEq, Repr

/-- A child process with its pending signals. -/
structure Process where
  state : Child.State
  stage : Stage
  pending : Signal → Bool

inductive ProcessAction where
  /-- `setHandlerSIGUSR1`, then `setHandlerSIGUSR2` -/
  | install
  | deliver (signum : Signal)
  | main (x : Child.Access)
  /-- `SIGALRM` -/
  | alarm
  deriving DecidableEq, Repr

namespace Process

/-- A child just forked. -/
def start : Process := ⟨.start, .starting, fun _ => false⟩

/-- No child has had this process id. -/
def absent : Process := ⟨.start, .dead, fun _ => false⟩

/-- What a signal does to the globals and to the process: `allowOutput`, `banOutput`, or the
default action. -/
def handle (p : Process) (signum : Signal) : Child.State × Stage :=
  match signum, p.stage with
  | .SIGUSR1, .allowing | .SIGUSR1, .looping => ({ p.state with permissionOutput := true }, p.stage)
  | .SIGUSR2, .looping => ({ p.state with permissionOutput := false }, p.stage)
  | _, _ => (p.state, .dead)

def next (p : Process) : ProcessAction → Option Process
  | .install =>
    match p.stage with
    | .starting => some { p with stage := .allowing }
    | .allowing => some { p with stage := .looping }
    | .looping | .dead => none
  | .deliver signum =>
    if p.stage ≠ .dead ∧ p.pending signum = true then
      some ⟨(p.handle signum).1, (p.handle signum).2, Function.update p.pending signum false⟩
    else none
  | .main x =>
    if p.stage = .looping then (p.state.main x).map fun state => { p with state := state } else none
  | .alarm => if p.stage = .looping then some { p with state := p.state.pairProcessing } else none

/-- `kill` -/
def post (p : Process) (signum : Signal) : Process :=
  { p with pending := Function.update p.pending signum true }

variable {p q : Process} {a : ProcessAction} {signum other : Signal}

/-- A step of the process is a step of its program, or leaves the globals alone. -/
theorem next_state (h : p.next a = some q) :
    q.state = p.state ∨ ∃ b, p.state.next b = some q.state := by
  cases a with
  | install =>
    simp only [next] at h
    split at h
    case h_1 | h_2 =>
      cases h
      exact .inl rfl
    case h_3 | h_4 => cases h
  | deliver signum =>
    simp only [next] at h
    split at h
    · cases h
      simp only [handle]
      split
      case h_1 | h_2 => exact .inr ⟨.allow, rfl⟩
      case h_3 => exact .inr ⟨.ban, rfl⟩
      case h_4 => exact .inl rfl
    · cases h
  | main x =>
    simp only [next] at h
    split at h
    · obtain ⟨state, hmain, rfl⟩ := Option.map_eq_some_iff.mp h
      exact .inr ⟨.main x, hmain⟩
    · cases h
  | alarm =>
    simp only [next] at h
    split at h
    · cases h
      exact .inr ⟨.alarm, rfl⟩
    · cases h

end Process

/-- The parent with its children; `granting` tells the loop of `allowAllStats` from that of
`banAllStats`. -/
structure Family where
  parent : State
  granting : Bool
  process : ℤ → Process

inductive FamilyAction where
  | parent (a : Action)
  | child (pid : ℤ) (a : ProcessAction)
  deriving DecidableEq, Repr

/-- The step as one of the parent. -/
def FamilyAction.ofParent : FamilyAction → Option Action
  | .parent a => some a
  | .child _ _ => none

namespace Family

def start : Family := ⟨.start, false, fun _ => .absent⟩

/-- The signal of the `kill` calls in a step of the parent. -/
def signum (f : Family) : Action → Signal
  | .command (.g _) | .alarm => .SIGUSR1
  | .command _ => .SIGUSR2
  | .fork _ | .wait _ | .main =>
    match f.parent.pc with
    | .resuming _ => .SIGUSR1
    | .signalling _ _ => if f.granting then .SIGUSR1 else .SIGUSR2
    | .menu | .forking | .storing _ | .killing _ _ | .reaping _ _ | .updating _ | .arming _ =>
      .SIGTERM

/-- The targets of the `kill` calls between two states of the parent. -/
def targets (s t : State) : List ℤ := (t.kills.drop s.kills.length).map Prod.fst

/-- The command that starts a loop over the table decides about its signal. -/
def grants (f : Family) : Action → Bool
  | .command (.g none) => true
  | .command (.s none) | .command (.p _) => false
  | .command _ | .fork _ | .wait _ | .main | .alarm => f.granting

def fork (process : ℤ → Process) : Action → ℤ → Process
  | .fork (some chpid) => Function.update process chpid .start
  | .command _ | .fork none | .wait _ | .main | .alarm => process

def post (process : ℤ → Process) (signum : Signal) (pids : List ℤ) : ℤ → Process :=
  fun pid => if pid ∈ pids then (process pid).post signum else process pid

/-- `wait` returns a child that has terminated. -/
def Reapable (f : Family) : Action → Prop
  | .wait (some (chpid, _)) => (f.process chpid).stage = .dead
  | .command _ | .fork _ | .wait none | .main | .alarm => True

instance (f : Family) : (a : Action) → Decidable (f.Reapable a)
  | .wait (some (_, _)) => inferInstanceAs (Decidable (_ = _))
  | .command _ | .fork _ | .wait none | .main | .alarm => isTrue trivial

def next (f : Family) : FamilyAction → Option Family
  | .parent a =>
    if f.Reapable a then
      (f.parent.next a).map fun parent =>
        ⟨parent, f.grants a, post (fork f.process a) (f.signum a) (targets f.parent parent)⟩
    else none
  | .child pid a =>
    ((f.process pid).next a).map fun p => { f with process := Function.update f.process pid p }

variable {f g : Family} {a : Action} {pid : ℤ}

theorem next_parent (h : f.next (.parent a) = some g) :
    f.Reapable a ∧ f.parent.next a = some g.parent ∧ g.granting = f.grants a ∧
      g.process = post (fork f.process a) (f.signum a) (targets f.parent g.parent) := by
  simp only [next] at h
  split at h
  · obtain ⟨parent, hparent, rfl⟩ := Option.map_eq_some_iff.mp h
    exact ⟨‹_›, hparent, rfl, rfl⟩
  · cases h

theorem next_child {b : ProcessAction} (h : f.next (.child pid b) = some g) :
    ∃ p, (f.process pid).next b = some p ∧
      g = { f with process := Function.update f.process pid p } := by
  simp only [next] at h
  obtain ⟨p, hp, rfl⟩ := Option.map_eq_some_iff.mp h
  exact ⟨p, hp, rfl⟩

/-- The parent runs as it does without its children. -/
theorem run_parent {as : List FamilyAction} (hrun : exec next start as = some f) :
    exec State.next State.start (as.filterMap FamilyAction.ofParent) = some f.parent := by
  have hall : StepsMeet next (fun _ _ => True) start as :=
    stepsMeet_of_forall (fun _ _ _ => trivial) _
  refine exec_filterMap (I := fun _ => True) Family.parent FamilyAction.ofParent
    (fun _ _ _ _ _ _ => trivial) ?_ ?_ trivial hall hrun
  · intro f b g a _ _ h hb
    cases b with
    | parent b =>
      obtain rfl : b = a := Option.some.inj hb
      exact (next_parent h).2.1
    | child pid b => cases hb
  · intro f b g _ _ h hb
    cases b with
    | parent b => cases hb
    | child pid b =>
      obtain ⟨p, -, rfl⟩ := next_child h
      rfl

theorem post_state (process : ℤ → Process) (signum : Signal) (pids : List ℤ) (pid : ℤ) :
    (post process signum pids pid).state = (process pid).state := by
  unfold post
  split <;> rfl

theorem post_stage (process : ℤ → Process) (signum : Signal) (pids : List ℤ) (pid : ℤ) :
    (post process signum pids pid).stage = (process pid).stage := by
  unfold post
  split <;> rfl

theorem fork_state (process : ℤ → Process) (a : Action) (pid : ℤ) :
    (fork process a pid).state = (process pid).state ∨ (fork process a pid).state = .start := by
  cases a with
  | fork chpid =>
    cases chpid with
    | none => exact .inl rfl
    | some chpid =>
      by_cases hpid : pid = chpid
      · subst hpid
        exact .inr (by rw [fork, Function.update_self]; rfl)
      · exact .inl (by rw [fork, Function.update_of_ne hpid])
  | command | wait | main | alarm => exact .inl rfl

/-- What every run of `child.c` keeps holds of every child, whatever signals reach it and when. -/
theorem run_child {I : Child.State → Prop} (hstart : I .start)
    (hstep : ∀ s a t, I s → s.next a = some t → I t) {as : List FamilyAction}
    (hrun : exec next start as = some f) (pid : ℤ) : I (f.process pid).state := by
  have hall : ∀ pid, I (f.process pid).state := by
    refine exec_invariant (I := fun f : Family => ∀ pid, I (f.process pid).state) ?_
      (fun _ => hstart) hrun
    intro f a g hf h pid
    cases a with
    | parent a =>
      obtain ⟨-, -, -, hprocess⟩ := next_parent h
      rw [hprocess, post_state]
      rcases fork_state f.process a pid with hsame | hfresh
      · rw [hsame]
        exact hf pid
      · rw [hfresh]
        exact hstart
    | child chpid a =>
      obtain ⟨p, hp, rfl⟩ := next_child h
      by_cases hpid : pid = chpid
      · subst hpid
        change I (Function.update f.process pid p pid).state
        rw [Function.update_self]
        rcases Process.next_state hp with hsame | ⟨b, hb⟩
        · rw [hsame]
          exact hf pid
        · exact hstep _ b _ (hf pid) hb
      · change I (Function.update f.process chpid p pid).state
        rw [Function.update_of_ne hpid]
        exact hf pid
  exact hall pid

end Family

namespace Child

/-- From the test of `countTimes` to the call of `printf`. -/
def Pc.printing : Pc → Bool
  | .testPermission | .reading _ => true
  | .zero | .one | .testTimes | .resetting _ => false

namespace State

/-- How far the samples are ahead of the statistics: by 102 for each one printed, for one about to
be printed, and by `countTimes` where it is not still to be reset. -/
structure Paced (s : State) : Prop where
  isInt : IsInt s.countTimes
  times : s.pc.timed = true → s.countTimes + 102 * s.printed.length ≤ s.deliveries
  due : s.pc.printing = true → 102 * (s.printed.length + 1) ≤ s.deliveries
  past : 102 * s.printed.length ≤ s.deliveries

variable {s t : State}

theorem start_paced : Paced start where
  isInt := by decide
  times _ := by decide
  due h := by cases h
  past := Nat.le_refl 0

/-- A step of the loop that leaves `countTimes`, the samples and the statistics. -/
theorem Paced.move (h : Paced s) (htimes : t.countTimes = s.countTimes)
    (hdeliveries : t.deliveries = s.deliveries) (hprinted : t.printed = s.printed)
    (htimed : t.pc.timed = true → s.pc.timed = true)
    (hprinting : t.pc.printing = true → 102 * (s.printed.length + 1) ≤ s.deliveries) :
    Paced t where
  isInt := htimes ▸ h.isInt
  times hr := by
    rw [htimes, hdeliveries, hprinted]
    exact h.times (htimed hr)
  due hp := by
    rw [hdeliveries, hprinted]
    exact hprinting hp
  past := by
    rw [hdeliveries, hprinted]
    exact h.past

theorem go_paced (h : Paced s) (hgo : s.go = some t) : Paced t := by
  have hdue := h.due
  have htimes := h.times
  unfold go at hgo
  cases hpc : s.pc with
  | zero | one =>
    simp only [hpc] at hgo
    split at hgo <;> cases hgo
    exact h.move rfl rfl rfl (fun _ => by rw [hpc]; rfl) fun hp => by cases hp
  | testTimes =>
    rw [hpc] at htimes
    simp only [hpc] at hgo
    cases hgo
    refine h.move rfl rfl rfl (fun _ => by rw [hpc]; rfl) fun hp => ?_
    simp only at hp
    split at hp
    · have hle := htimes rfl
      omega
    · cases hp
  | testPermission =>
    simp only [hpc] at hgo
    cases hgo
    exact h.move rfl rfl rfl (fun _ => by rw [hpc]; rfl) fun _ => hdue (by rw [hpc]; rfl)
  | reading read =>
    rw [hpc] at hdue
    simp only [hpc] at hgo
    split at hgo <;> cases hgo
    refine ⟨h.isInt, (fun hr => by cases hr), (fun hp => by cases hp), ?_⟩
    simp only [List.length_append, List.length_singleton]
    exact hdue rfl
  | resetting stored =>
    simp only [hpc] at hgo
    split at hgo <;> cases hgo
    have hmem := (‹∀ v ∈ Target.all, v ∈ stored›) .times (Target.mem_all _)
    refine h.move rfl rfl rfl (fun _ => ?_) fun hp => by cases hp
    rw [hpc]
    exact decide_eq_true hmem

theorem main_paced (x : Access) (h : Paced s) (hmain : s.main x = some t) : Paced t := by
  have hdue := h.due
  have hpast := h.past
  cases x with
  | assign m =>
    simp only [main] at hmain
    split at hmain
    case h_1 | h_2 =>
      cases hmain
      cases m <;> exact ⟨h.isInt, h.times, h.due, h.past⟩
    all_goals cases hmain
  | read c =>
    simp only [main] at hmain
    split at hmain
    case h_1 read hpc =>
      split at hmain <;> cases hmain
      exact h.move rfl rfl rfl (fun _ => by rw [hpc]; rfl) fun _ => hdue (by rw [hpc]; rfl)
    all_goals cases hmain
  | reset v =>
    simp only [main] at hmain
    split at hmain
    case h_1 stored hpc =>
      split at hmain <;> cases hmain
      cases v with
      | times =>
        have hzero : IsInt 0 := by decide
        refine ⟨hzero, fun _ => ?_, (fun hp => by cases hp), hpast⟩
        simp only [reset]
        omega
      | counter c =>
        refine h.move rfl rfl rfl (fun hr => ?_) fun hp => by cases hp
        simpa [hpc, Pc.timed] using hr
    all_goals cases hmain
  | go => exact go_paced h hmain

theorem pairProcessing_paced (h : Paced s) : Paced s.pairProcessing := by
  have hint := h.isInt
  have htimes := h.times
  have hdue := h.due
  have hpast := h.past
  have hle : toInt (s.countTimes + 1) ≤ s.countTimes + 1 := by
    simp only [IsInt] at hint
    simp only [toInt, Int.bmod_def]
    omega
  refine ⟨isInt_toInt _, fun hr => ?_, fun hp => ?_, ?_⟩
  · have hold := htimes hr
    simp only [pairProcessing]
    push_cast
    omega
  · have hold := hdue hp
    simp only [pairProcessing]
    omega
  · simp only [pairProcessing]
    omega

theorem next_paced (s : State) (a : Action) (t : State) (h : Paced s)
    (hnext : s.next a = some t) : Paced t := by
  cases a with
  | main x => exact main_paced x h hnext
  | alarm =>
    obtain rfl : s.pairProcessing = t := Option.some_inj.mp hnext
    exact pairProcessing_paced h
  | allow =>
    obtain rfl : { s with permissionOutput := true } = t := Option.some_inj.mp hnext
    exact ⟨h.isInt, h.times, h.due, h.past⟩
  | ban =>
    obtain rfl : { s with permissionOutput := false } = t := Option.some_inj.mp hnext
    exact ⟨h.isInt, h.times, h.due, h.past⟩

end State

end Child

/-- In every run of the parent and its children, each child has taken 102 samples for each of its
statistics, also where samples are lost or counted late. -/
theorem Family.run_paced (as : List FamilyAction) {f : Family}
    (hrun : exec next start as = some f) (pid : ℤ) :
    102 * (f.process pid).state.printed.length ≤ (f.process pid).state.deliveries :=
  (run_child Child.State.start_paced Child.State.next_paced hrun pid).past

/-- The steps of one child alone are steps of the family. -/
theorem Family.exec_child {f : Family} {pid : ℤ} {as : List ProcessAction} {p : Process}
    (h : exec Process.next (f.process pid) as = some p) :
    exec next f (as.map (.child pid)) =
      some { f with process := Function.update f.process pid p } := by
  induction as generalizing f with
  | nil =>
    obtain rfl : f.process pid = p := Option.some.inj h
    simp
  | cons a as ih =>
    obtain ⟨q, hq, hrest⟩ := exec_cons_eq_some.mp h
    have hnext : f.next (.child pid a) =
        some { f with process := Function.update f.process pid q } := by
      simp only [next, hq, Option.map_some]
    rw [List.map_cons, exec_cons, hnext, Option.bind_some, ih]
    · simp
    · simpa using hrest

/-- A child takes 102 samples, and one more between the reads for `printf` and the call. -/
def samplesThenPrints : List ProcessAction :=
  [.install, .install] ++ List.replicate 102 .alarm ++
    [.main (.assign .first), .main (.assign .second), .main .go, .main (.assign .first),
      .main (.assign .second), .main .go, .main .go, .main .go, .main (.read .oneAndZero),
      .main (.read .zeroAndOne), .main (.read .oneAndOne), .main (.read .zeroAndZero), .alarm,
      .main .go]

theorem Family.run_paced_sampled :
    ∃ f, exec next start ([.parent (.command .plus), .parent (.fork (some 100))] ++
        samplesThenPrints.map (.child 100)) = some f ∧
      (f.process 100).state.printed.length = 1 ∧
      102 * (f.process 100).state.printed.length ≤ (f.process 100).state.deliveries := by
  have hprints : (exec Process.next .start samplesThenPrints).map
      (fun p => p.state.printed.length) = some 1 := by decide +kernel
  obtain ⟨p, hp, hlength⟩ := Option.map_eq_some_iff.mp hprints
  have hforked : ∃ f, exec next start [.parent (.command .plus), .parent (.fork (some 100))] =
      some f ∧ f.process 100 = .start := ⟨_, rfl, rfl⟩
  obtain ⟨f, hfork, hstart⟩ := hforked
  have hrun : exec next start ([.parent (.command .plus), .parent (.fork (some 100))] ++
      samplesThenPrints.map (.child 100)) =
        some { f with process := Function.update f.process 100 p } := by
    rw [exec_append, hfork, Option.bind_some]
    apply exec_child
    rw [hstart]
    exact hp
  refine ⟨_, hrun, ?_, run_paced _ hrun 100⟩
  simpa using hlength

end OsispLabs.Lab3
