import OsispLabs.Lib.Execution
import OsispLabs.Lib.MachineInt
import Mathlib.Algebra.BigOperators.Group.List.Basic
import Mathlib.Algebra.Ring.Int.Defs
import Mathlib.Logic.Function.Basic

/-!
# The statistics of `child.c`

The main loop assigns the pair and prints and resets the counters; `SIGALRM` may be delivered
between any two of its reads and assignments, and is handled as a whole. C leaves open in which
order the members of `pair` are copied, the arguments of `printf` read and the variables of the
chained assignment stored, so the steps within each of these statements come in any order.
`deliveries` and `printed` record what has been delivered and printed so far.
-/
namespace OsispLabs.Lab3
open Lib

/-- `countZeroAndZero`, `countOneAndOne`, `countZeroAndOne` and `countOneAndZero` -/
inductive Counter where
  | zeroAndZero
  | oneAndOne
  | zeroAndOne
  | oneAndZero
  deriving DecidableEq, Repr

def Counter.all : List Counter := [.zeroAndZero, .oneAndOne, .zeroAndOne, .oneAndZero]

@[simp] theorem Counter.mem_all (c : Counter) : c ∈ all := by cases c <;> decide

abbrev Counts := Counter → ℤ

def total (n : Counts) : ℤ :=
  n .zeroAndZero + n .oneAndOne + n .zeroAndOne + n .oneAndZero

namespace Child

/-- The members of `pair`. -/
inductive Member where
  | first
  | second
  deriving DecidableEq, Repr

/-- The variables of `countTimes = countZeroAndZero = ... = 0`. -/
inductive Target where
  | times
  | counter (c : Counter)
  deriving DecidableEq, Repr

def Target.all : List Target := .times :: Counter.all.map .counter

@[simp] theorem Target.mem_all (v : Target) : v ∈ all := by
  cases v with
  | times => decide
  | counter c => cases c <;> decide

/-- Where the main loop stands: in `pair = ZERO` or `pair = ONE`, before a test, at `printf` with
the counters read so far, or in the chained assignment with the variables stored so far. -/
inductive Pc where
  | zero
  | one
  | testTimes
  | testPermission
  | reading (read : List Counter)
  | resetting (stored : List Target)
  deriving DecidableEq, Repr

/-- The globals of the child, the arguments of `printf`, and the record of the run. -/
structure State where
  first : Bool
  second : Bool
  countTimes : ℤ
  counts : Counts
  permissionOutput : Bool
  pc : Pc
  args : Counts
  deliveries : ℕ
  printed : List Counts

/-- An access of the main loop: a member of `pair` is assigned, a counter read as an argument of
`printf`, a variable reset; or a test, the call of `printf`, the end of an assignment. -/
inductive Access where
  | assign (m : Member)
  | read (c : Counter)
  | reset (v : Target)
  | go
  deriving DecidableEq, Repr

inductive Action where
  | main (x : Access)
  /-- `SIGALRM` -/
  | alarm
  /-- `SIGUSR1` -/
  | allow
  /-- `SIGUSR2` -/
  | ban
  deriving DecidableEq, Repr

namespace State

def start : State := ⟨false, false, 0, fun _ => 0, true, .zero, fun _ => 0, 0, []⟩

/-- The counter that `pairProcessing` increments. -/
def sample (s : State) : Counter :=
  if s.first = false ∧ s.second = false then .zeroAndZero
  else if s.first = true ∧ s.second = true then .oneAndOne
  else if s.first = false ∧ s.second = true then .zeroAndOne
  else .oneAndZero

def pairProcessing (s : State) : State :=
  { s with
    counts := Function.update s.counts s.sample (toInt (s.counts s.sample + 1))
    countTimes := toInt (s.countTimes + 1)
    deliveries := s.deliveries + 1 }

def assign (s : State) (value : Bool) : Member → State
  | .first => { s with first := value }
  | .second => { s with second := value }

def reset (s : State) : Target → State
  | .times => { s with countTimes := 0 }
  | .counter c => { s with counts := Function.update s.counts c 0 }

/-- The tests, the call of `printf` and the ends of the assignments. -/
def go (s : State) : Option State :=
  match s.pc with
  | .zero => if s.first = false ∧ s.second = false then some { s with pc := .one } else none
  | .one => if s.first = true ∧ s.second = true then some { s with pc := .testTimes } else none
  | .testTimes => some { s with pc := if s.countTimes > 101 then .testPermission else .zero }
  | .testPermission =>
    some { s with pc := if s.permissionOutput = true then .reading [] else .zero }
  | .reading read =>
    if ∀ c ∈ Counter.all, c ∈ read then
      some { s with printed := s.printed ++ [s.args], pc := .resetting [] }
    else none
  | .resetting stored =>
    if ∀ v ∈ Target.all, v ∈ stored then some { s with pc := .zero } else none

def main (s : State) : Access → Option State
  | .assign m =>
    match s.pc with
    | .zero => some (s.assign false m)
    | .one => some (s.assign true m)
    | .testTimes | .testPermission | .reading _ | .resetting _ => none
  | .read c =>
    match s.pc with
    | .reading read =>
      if c ∈ read then none
      else some { s with args := Function.update s.args c (s.counts c), pc := .reading (c :: read) }
    | .zero | .one | .testTimes | .testPermission | .resetting _ => none
  | .reset v =>
    match s.pc with
    | .resetting stored =>
      if v ∈ stored then none else some { s.reset v with pc := .resetting (v :: stored) }
    | .zero | .one | .testTimes | .testPermission | .reading _ => none
  | .go => s.go

def next (s : State) : Action → Option State
  | .main x => s.main x
  | .alarm => some s.pairProcessing
  | .allow => some { s with permissionOutput := true }
  | .ban => some { s with permissionOutput := false }

end State

/-- The counters that are arguments of the next `printf`. -/
def Pc.passed : Pc → List Counter
  | .reading read => read
  | .zero | .one | .testTimes | .testPermission | .resetting _ => []

/-- The variables that the chained assignment has stored. -/
def Pc.stored : Pc → List Target
  | .resetting stored => stored
  | .zero | .one | .testTimes | .testPermission | .reading _ => []

/-- The counter has been printed and still waits for its reset. -/
def Pc.pending : Pc → Counter → Bool
  | .resetting stored, c => .counter c ∉ stored
  | .zero, _ | .one, _ | .testTimes, _ | .testPermission, _ | .reading _, _ => false

/-- After the read of `countOneAndOne` for `printf`, until it and `countTimes` have been reset. -/
def Pc.exposed : Pc → Bool
  | .reading read => .oneAndOne ∈ read
  | .resetting stored => ¬ (.counter .oneAndOne ∈ stored ∧ .times ∈ stored)
  | .zero | .one | .testTimes | .testPermission => false

/-- `countTimes` belongs to the counters: it is not still to be reset. -/
def Pc.timed : Pc → Bool
  | .resetting stored => .times ∈ stored
  | .zero | .one | .testTimes | .testPermission | .reading _ => true

theorem Pc.timed_of_not_exposed {pc : Pc} (h : pc.exposed = false) : pc.timed = true := by
  cases pc with
  | resetting stored =>
    simp only [exposed, decide_eq_false_iff_not, not_not] at h
    simp only [timed, h.2, decide_true]
  | _ => rfl

namespace State

/-- The counters, without what has been printed already. -/
def current (s : State) : Counts := fun c => if s.pc.pending c = true then 0 else s.counts c

/-- Every delivery is in a printed statistic or in a current counter. -/
def Conserved (s : State) : Prop :=
  (s.deliveries : ℤ) = (s.printed.map total).sum + total s.current

/-- Where the loop tests `countTimes`, it is the sum of the counters. -/
def Consistent (s : State) : Prop := s.pc = .testTimes → s.countTimes = total s.counts

/-- No sample arrives after `countOneAndOne` was read for `printf` and before it and `countTimes`
have been reset, and none when `countTimes` has reached the largest `int`. -/
def Timely (s : State) : Action → Prop
  | .alarm => s.pc.exposed = false ∧ s.countTimes + 1 < 2 ^ 31
  | .main _ | .allow | .ban => True

instance (s : State) : (a : Action) → Decidable (Timely s a)
  | .alarm => inferInstanceAs (Decidable (_ ∧ _))
  | .main _ | .allow | .ban => isTrue trivial

/-- Both members of `pair` are set outside the two assignments to it. -/
def Assigned (s : State) : Prop :=
  match s.pc with
  | .zero | .one => True
  | .testTimes | .testPermission | .reading _ | .resetting _ => s.first = true ∧ s.second = true

/-- `n` samples are in no statistic and in no current counter, and the arguments of `printf` are the
counters. -/
structure Lacks (n : ℤ) (s : State) : Prop where
  args : ∀ c ∈ s.pc.passed, s.args c = s.counts c
  missing : (s.deliveries : ℤ) = (s.printed.map total).sum + total s.current + n

/-- The invariant of runs without untimely samples. -/
structure Sound (s : State) : Prop where
  nonneg : ∀ c, 0 ≤ s.counts c
  assigned : s.Assigned
  times : s.pc.timed = true → s.countTimes = total s.current
  zeroed : ∀ c, .counter c ∈ s.pc.stored → s.pc.exposed = true ∨ c ≠ .oneAndOne → s.counts c = 0
  lacks : s.Lacks 0

variable {s t : State} {n : ℤ}

theorem total_update (n : Counts) (c : Counter) (v : ℤ) :
    total (Function.update n c v) = total n - n c + v := by
  cases c <;> simp [total] <;> omega

theorem le_total {n : Counts} (h : ∀ c, 0 ≤ n c) (c : Counter) : n c ≤ total n := by
  have hzz := h .zeroAndZero
  have hoo := h .oneAndOne
  have hzo := h .zeroAndOne
  have hoz := h .oneAndZero
  cases c <;> simp only [total] <;> omega

theorem current_eq (h : ∀ c, s.pc.pending c = false) : s.current = s.counts := by
  funext c
  simp [current, h]

theorem current_update {v : ℤ} {c : Counter} (hc : s.pc.pending c = false)
    (ht : t.pc = s.pc) (hcounts : t.counts = Function.update s.counts c v) :
    t.current = Function.update s.current c v := by
  funext d
  by_cases hd : d = c
  · subst hd
    simp [current, ht, hc, hcounts]
  · simp [current, ht, hcounts, hd]

theorem current_reset {stored : List Target} (v : Target) (hpc : s.pc = .resetting stored)
    (hv : v ∉ stored) : current { s.reset v with pc := .resetting (v :: stored) } = s.current := by
  funext d
  cases v with
  | times => simp [current, Pc.pending, hpc, reset]
  | counter c =>
    by_cases hd : d = c
    · simp [current, Pc.pending, hpc, reset, hd, hv]
    · simp [current, Pc.pending, hpc, reset, hd]

theorem conserved_iff : s.Conserved ↔ (s.deliveries : ℤ) =
    (s.printed.map total).sum + total s.current + 0 := by
  rw [Conserved, Int.add_zero]

theorem Lacks.not_conserved (h : s.Lacks 1) : ¬ s.Conserved := by
  have hmissing := h.missing
  unfold Conserved
  omega

theorem Lacks.frame (h : s.Lacks n) (hcurrent : t.current = s.current)
    (hdeliveries : t.deliveries = s.deliveries) (hprinted : t.printed = s.printed)
    (hargs : ∀ c ∈ t.pc.passed, t.args c = t.counts c) : t.Lacks n where
  args := hargs
  missing := by
    rw [hdeliveries, hprinted, hcurrent]
    exact h.missing

/-- A step to a place where nothing is pending and `printf` has no arguments. -/
theorem Lacks.goOn (h : s.Lacks n) {pc : Pc} (hpending : ∀ c, s.pc.pending c = false)
    (hpending' : ∀ c, pc.pending c = false) (hpassed : pc.passed = []) :
    Lacks n { s with pc := pc } := by
  refine h.frame ?_ rfl rfl ?_
  · rw [current_eq hpending', current_eq hpending]
  · intro c hc
    rw [hpassed] at hc
    cases hc

/-- The statistic takes over what the counters held. -/
theorem print_lacks {read : List Counter} (h : s.Lacks n) (hpc : s.pc = .reading read)
    (hall : ∀ c ∈ Counter.all, c ∈ read) :
    Lacks n { s with printed := s.printed ++ [s.args], pc := .resetting [] } := by
  have hmissing := h.missing
  have hargs : s.args = s.counts := by
    funext c
    apply h.args c
    rw [hpc]
    exact hall c c.mem_all
  rw [current_eq (by simp [hpc, Pc.pending])] at hmissing
  refine ⟨by simp [Pc.passed], ?_⟩
  simp [current, Pc.pending, total, hargs] at hmissing ⊢
  omega

theorem go_lacks (h : s.Lacks n) (hgo : s.go = some t) : t.Lacks n := by
  unfold go at hgo
  cases hpc : s.pc with
  | zero | one =>
    simp only [hpc] at hgo
    split at hgo <;> cases hgo
    exact h.goOn (by simp [hpc, Pc.pending]) (by simp [Pc.pending]) rfl
  | testTimes | testPermission =>
    simp only [hpc] at hgo
    cases hgo
    split <;> exact h.goOn (by simp [hpc, Pc.pending]) (by simp [Pc.pending]) rfl
  | reading read =>
    simp only [hpc] at hgo
    split at hgo <;> cases hgo
    exact print_lacks h hpc ‹_›
  | resetting stored =>
    simp only [hpc] at hgo
    split at hgo <;> cases hgo
    have hall (v : Target) : v ∈ stored := (‹∀ v ∈ Target.all, v ∈ stored›) v v.mem_all
    exact h.goOn (by simp [hpc, Pc.pending, hall]) (by simp [Pc.pending]) rfl

/-- The loop itself neither loses nor finds a sample. -/
theorem main_lacks (x : Access) (h : s.Lacks n) (hmain : s.main x = some t) : t.Lacks n := by
  cases x with
  | assign m =>
    simp only [main] at hmain
    split at hmain
    case h_1 | h_2 =>
      cases hmain
      cases m <;> exact ⟨h.args, h.missing⟩
    all_goals cases hmain
  | read c =>
    simp only [main] at hmain
    split at hmain
    case h_1 read hpc =>
      have hargs := h.args
      rw [hpc] at hargs
      split at hmain <;> cases hmain
      refine h.frame ?_ rfl rfl fun d hd => ?_
      · rw [current_eq (by simp [Pc.pending]), current_eq (by simp [hpc, Pc.pending])]
      · by_cases heq : d = c
        · simp [heq]
        · simp only [Function.update_of_ne heq]
          exact hargs d ((List.mem_cons.mp hd).resolve_left heq)
    all_goals cases hmain
  | reset v =>
    simp only [main] at hmain
    split at hmain
    case h_1 stored hpc =>
      split at hmain <;> cases hmain
      have hcurrent := current_reset v hpc ‹_›
      cases v <;> exact h.frame hcurrent rfl rfl (by simp [Pc.passed])
    all_goals cases hmain
  | go => exact go_lacks h hmain

theorem current_nonneg (h : Sound s) (c : Counter) : 0 ≤ s.current c := by
  unfold current
  split
  · exact Int.le_refl 0
  · exact h.nonneg c

theorem start_sound : Sound start where
  nonneg _ := Int.le_refl 0
  assigned := trivial
  times _ := rfl
  zeroed := by simp [start, Pc.stored]
  lacks := ⟨by simp [start, Pc.passed], rfl⟩

theorem Sound.consistent (h : Sound s) : s.Consistent := by
  intro hpc
  have htimes := h.times (by rw [hpc]; rfl)
  rwa [current_eq (by simp [hpc, Pc.pending])] at htimes

/-- After the assignments to `pair` a sample counts as `countOneAndOne`. -/
theorem sample_of_assigned (h : s.first = true ∧ s.second = true) : s.sample = .oneAndOne := by
  simp [sample, h]

/-- A timely sample is in no counter that waits for its reset. -/
theorem sample_not_pending (h : Sound s) (hexposed : s.pc.exposed = false) :
    s.pc.pending s.sample = false := by
  have hassigned := h.assigned
  cases hpc : s.pc with
  | resetting stored =>
    rw [Assigned, hpc] at hassigned
    rw [hpc] at hexposed
    simp only [Pc.exposed, decide_eq_false_iff_not, not_not] at hexposed
    simp [Pc.pending, sample_of_assigned hassigned, hexposed.1]
  | _ => rfl

/-- A timely sample is counted once in its counter and once in `countTimes`. -/
theorem pairProcessing_eq (h : Sound s) (hok : s.Timely .alarm) :
    s.pairProcessing = { s with
      counts := Function.update s.counts s.sample (s.counts s.sample + 1)
      countTimes := s.countTimes + 1
      deliveries := s.deliveries + 1 } := by
  obtain ⟨hexposed, hlt⟩ := hok
  have htimes := h.times (Pc.timed_of_not_exposed hexposed)
  have hle := le_total (current_nonneg h) s.sample
  have hcurrent : s.current s.sample = s.counts s.sample := by
    simp [current, sample_not_pending h hexposed]
  have hcount := h.nonneg s.sample
  rw [pairProcessing, toInt_of_isInt ⟨by omega, by omega⟩, toInt_of_isInt ⟨by omega, by omega⟩]

theorem pairProcessing_sound (h : Sound s) (hok : s.Timely .alarm) : Sound s.pairProcessing := by
  rw [pairProcessing_eq h hok]
  obtain ⟨hexposed, -⟩ := hok
  have hassigned := h.assigned
  have hpending := sample_not_pending h hexposed
  have hcurrent := current_update (t := { s with
      counts := Function.update s.counts s.sample (s.counts s.sample + 1)
      countTimes := s.countTimes + 1
      deliveries := s.deliveries + 1 }) hpending rfl rfl
  have hsample : s.current s.sample = s.counts s.sample := by simp [current, hpending]
  have hcount := h.nonneg s.sample
  refine ⟨?_, h.assigned, ?_, ?_, ?_, ?_⟩
  · intro c
    by_cases hc : c = s.sample
    · simp only [hc, Function.update_self]
      omega
    · simpa only [Function.update_of_ne hc] using h.nonneg c
  · intro hr
    have htimes := h.times hr
    rw [hcurrent, total_update]
    simp only
    omega
  · intro c hc hor
    have hne : c ≠ s.sample := by
      cases hpc : s.pc with
      | resetting stored =>
        rw [Assigned, hpc] at hassigned
        rw [sample_of_assigned hassigned]
        rcases hor with hbad | hne
        · rw [hexposed] at hbad
          cases hbad
        · exact hne
      | _ =>
        simp only [hpc] at hc
        cases hc
    exact (Function.update_of_ne hne _ _).trans (h.zeroed c hc hor)
  · intro c hc
    have hne : c ≠ s.sample := by
      cases hpc : s.pc with
      | reading read =>
        rw [Assigned, hpc] at hassigned
        rw [hpc] at hc hexposed
        rw [sample_of_assigned hassigned]
        rintro rfl
        exact absurd hc (of_decide_eq_false hexposed)
      | _ =>
        rw [hpc] at hc
        cases hc
    exact (h.lacks.args c hc).trans (Function.update_of_ne hne _ _).symm
  · have hmissing := h.lacks.missing
    rw [hcurrent, total_update]
    push_cast
    omega

/-- A step of the loop that leaves the counters. -/
theorem Sound.move (h : Sound s) (hlacks : t.Lacks 0) (hcounts : t.counts = s.counts)
    (htimes : t.countTimes = s.countTimes) (hpending : ∀ c, s.pc.pending c = false)
    (hpending' : ∀ c, t.pc.pending c = false) (htimed : s.pc.timed = true)
    (hassigned : t.Assigned) (hstored : t.pc.stored = []) : Sound t where
  nonneg c := by
    rw [hcounts]
    exact h.nonneg c
  assigned := hassigned
  times _ := by
    rw [htimes, current_eq hpending', hcounts, ← current_eq hpending]
    exact h.times htimed
  zeroed c hc _ := by
    rw [hstored] at hc
    cases hc
  lacks := hlacks

theorem reset_sound {stored : List Target} (v : Target) (h : Sound s)
    (hpc : s.pc = .resetting stored) (hv : v ∉ stored)
    (hlacks : Lacks 0 { s.reset v with pc := .resetting (v :: stored) }) :
    Sound { s.reset v with pc := .resetting (v :: stored) } := by
  have hassigned := h.assigned
  have hzeroed := h.zeroed
  have hcurrent := current_reset v hpc hv
  rw [Assigned, hpc] at hassigned
  rw [hpc] at hzeroed
  have hkept (c : Counter) (hc : .counter c ∈ stored)
      (hor : (Pc.resetting (v :: stored)).exposed = true ∨ c ≠ .oneAndOne) : s.counts c = 0 := by
    refine hzeroed c hc (hor.imp_left fun hexposed => ?_)
    simp only [Pc.exposed, List.mem_cons, decide_eq_true_eq] at hexposed ⊢
    tauto
  cases v with
  | times =>
    refine ⟨h.nonneg, hassigned, fun _ => ?_, fun c hc hor => ?_, hlacks⟩
    · rw [hcurrent]
      have hzero (c : Counter) : s.current c = 0 := by
        by_cases hc : .counter c ∈ stored
        · have hcount := hzeroed c hc (.inl (by simp [Pc.exposed, hv]))
          simp [current, hcount]
        · simp [current, hpc, Pc.pending, hc]
      simp [reset, total, hzero]
    · exact hkept c ((List.mem_cons.mp hc).resolve_left (by simp)) hor
  | counter c =>
    refine ⟨fun d => ?_, hassigned, fun hr => ?_, fun d hd hor => ?_, hlacks⟩
    · by_cases hd : d = c
      · simp [reset, hd]
      · simpa [reset, Function.update_of_ne hd] using h.nonneg d
    · rw [hcurrent]
      refine h.times ?_
      simpa [hpc, Pc.timed] using hr
    · by_cases heq : d = c
      · simp [reset, heq]
      · have hcount : (s.reset (.counter c)).counts d = s.counts d := Function.update_of_ne heq _ _
        exact hcount.trans (hkept d ((List.mem_cons.mp hd).resolve_left (by simp [heq])) hor)

theorem go_sound (h : Sound s) (hlacks : t.Lacks 0) (hgo : s.go = some t) : Sound t := by
  have hassigned := h.assigned
  unfold go at hgo
  cases hpc : s.pc with
  | zero | one =>
    simp only [hpc] at hgo
    split at hgo <;> cases hgo
    exact h.move hlacks rfl rfl (by simp [hpc, Pc.pending]) (by simp [Pc.pending])
      (by rw [hpc]; rfl) (by simp_all [Assigned]) rfl
  | testTimes | testPermission =>
    rw [Assigned, hpc] at hassigned
    simp only [hpc] at hgo
    cases hgo
    revert hlacks
    split
    all_goals
      intro hlacks
      exact h.move hlacks rfl rfl (by simp [hpc, Pc.pending]) (by simp [Pc.pending])
        (by rw [hpc]; rfl) (by simp_all [Assigned]) rfl
  | reading read =>
    rw [Assigned, hpc] at hassigned
    simp only [hpc] at hgo
    split at hgo <;> cases hgo
    exact ⟨h.nonneg, hassigned, by simp [Pc.timed], by simp [Pc.stored], hlacks⟩
  | resetting stored =>
    simp only [hpc] at hgo
    split at hgo <;> cases hgo
    have hall (v : Target) : v ∈ stored := (‹∀ v ∈ Target.all, v ∈ stored›) v v.mem_all
    exact h.move hlacks rfl rfl (by simp [hpc, Pc.pending, hall]) (by simp [Pc.pending])
      (by simp [hpc, Pc.timed, hall]) trivial rfl

theorem main_sound (x : Access) (h : Sound s) (hmain : s.main x = some t) : Sound t := by
  have hlacks := main_lacks x h.lacks hmain
  have hassigned := h.assigned
  cases x with
  | assign m =>
    simp only [main] at hmain
    split at hmain
    case h_1 hpc | h_2 hpc =>
      cases hmain
      cases m with
      | first | second =>
        exact h.move hlacks rfl rfl (by simp [hpc, Pc.pending]) (by simp [assign, hpc, Pc.pending])
          (by rw [hpc]; rfl) (by simp [assign, Assigned, hpc]) (by simp [assign, hpc, Pc.stored])
    all_goals cases hmain
  | read c =>
    simp only [main] at hmain
    split at hmain
    case h_1 read hpc =>
      rw [Assigned, hpc] at hassigned
      split at hmain <;> cases hmain
      exact h.move hlacks rfl rfl (by simp [hpc, Pc.pending]) (by simp [Pc.pending])
        (by rw [hpc]; rfl) hassigned rfl
    all_goals cases hmain
  | reset v =>
    simp only [main] at hmain
    split at hmain
    case h_1 stored hpc =>
      split at hmain <;> cases hmain
      exact reset_sound v h hpc ‹_› hlacks
    all_goals cases hmain
  | go => exact go_sound h hlacks hmain

theorem next_sound {a : Action} (h : Sound s) (hok : Timely s a) (hnext : next s a = some t) :
    Sound t := by
  cases a with
  | main x => exact main_sound x h hnext
  | alarm =>
    obtain rfl : s.pairProcessing = t := Option.some_inj.mp hnext
    exact pairProcessing_sound h hok
  | allow =>
    obtain rfl : { s with permissionOutput := true } = t := Option.some_inj.mp hnext
    exact ⟨h.nonneg, h.assigned, h.times, h.zeroed, h.lacks.args, h.lacks.missing⟩
  | ban =>
    obtain rfl : { s with permissionOutput := false } = t := Option.some_inj.mp hnext
    exact ⟨h.nonneg, h.assigned, h.times, h.zeroed, h.lacks.args, h.lacks.missing⟩

/-- In every run whose samples are timely, no sample is lost or counted twice. -/
theorem run_conserved {as : List Action} {s : State} (hok : StepsMeet next Timely start as)
    (hrun : exec next start as = some s) : s.Conserved ∧ s.Consistent := by
  have hsound := exec_invariant_of_steps (fun _ _ _ => next_sound) start_sound hok hrun
  exact ⟨conserved_iff.mpr hsound.lacks.missing, hsound.consistent⟩

/-- One pass of the loop to the test of `countTimes`. -/
def assignsPair : List Action :=
  [.main (.assign .first), .main (.assign .second), .main .go, .main (.assign .first),
    .main (.assign .second), .main .go]

/-- The reads for `printf` in the order of its arguments, with the call. -/
def prints : List Action := Counter.all.map (fun c => .main (.read c)) ++ [.main .go]

/-- The stores of the chained assignment from right to left. -/
def resets : List Action :=
  Target.all.reverse.map (fun v => .main (.reset v)) ++ [.main .go]

/-- A statistic with samples between the steps of the loop that lead to it, the last one after
two counters were read for `printf` from right to left. -/
def samplesInTime : List Action :=
  List.replicate 100 .alarm ++ [.main (.assign .first), .alarm] ++ assignsPair.drop 1 ++
    [.alarm, .main .go, .main .go, .main (.read .oneAndZero), .main (.read .zeroAndOne), .alarm,
      .ban, .main (.read .oneAndOne), .main (.read .zeroAndZero), .main .go] ++ resets

theorem run_conserved_samplesInTime :
    (exec next start samplesInTime).map (fun s => s.printed.length) = some 1 ∧
    ∀ s, exec next start samplesInTime = some s → s.Conserved ∧ s.Consistent :=
  ⟨by decide +kernel, fun _ => run_conserved (by decide +kernel)⟩

/-- A statistic of 102 samples, and one more between the call of `printf` and the resets. -/
def lateSample : List Action :=
  List.replicate 102 .alarm ++ assignsPair ++ [.main .go, .main .go] ++ prints ++ [.alarm] ++ resets

/-- The statistic is reset, and the last sample is in no counter. -/
theorem lateSample_lost : ∃ s, exec next start lateSample = some s ∧ ¬ s.Conserved := by
  have hend : (exec next start lateSample).map
      (fun s => (s.deliveries, (s.printed.map total).sum + total s.current)) =
        some (103, 102) := by
    decide +kernel
  obtain ⟨s, hrun, hvalues⟩ := Option.map_eq_some_iff.mp hend
  obtain ⟨hdeliveries, htotal⟩ := Prod.mk.inj hvalues
  refine ⟨s, hrun, fun h => ?_⟩
  rw [Conserved, hdeliveries, htotal] at h
  exact absurd h (by decide)

end State

end Child

end OsispLabs.Lab3
