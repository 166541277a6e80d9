import OsispLabs.Lib.Execution
import OsispLabs.Lib.MachineInt
import Mathlib.Logic.Function.Basic

/-!
# The commands of `lab3.c`

`childCount`, the table `childPidMas` and the children that the parent has forked and not yet
reaped. The parent stops between any two accesses to the table, so the `SIGALRM` handler can run
there once `p` has armed the timer. Results of `fork` and `wait` are part of the labels.
-/
namespace OsispLabs.Lab3
open Lib

def MAX_CHILD : ℤ := 50

/-- A command line: `s` and `g` look for digits, `p` always reads a number. -/
inductive Command where
  | plus
  | minus
  | k
  | s (digits : Option ℕ)
  | g (digits : Option ℕ)
  | p (n : ℤ)
  deriving DecidableEq, Repr

/-- `atoi` of a run of digits: `strtol` narrowed to `int`. -/
def atoi (digits : ℕ) : ℤ := toInt digits

/-- Where `main` stands. `killing` and `reaping` are the two calls of `destroyChildProcess` on
entry `i`; the flag says whether `destroyAllChildProcess` made the call. `signalling` is the loop
of `allowAllStats` or `banAllStats` at entry `i`, run by `p` where a number is given. -/
inductive Pc where
  | menu
  | forking
  | storing (chpid : ℤ)
  | killing (all : Bool) (i : ℤ)
  | reaping (all : Bool) (i : ℤ)
  | updating (all : Bool)
  | signalling (i : ℤ) (n : Option ℤ)
  | arming (n : ℤ)
  | resuming (n : ℤ)
  deriving DecidableEq, Repr

/-- The parent, with the targets of its `kill` calls, each beside the children unreaped at that
moment, and the indices at which it has used `childPidMas`. -/
structure State where
  childCount : ℤ
  childPidMas : ℤ → ℤ
  children : List ℤ
  armed : Bool
  pc : Pc
  kills : List (ℤ × List ℤ)
  indices : List ℤ

inductive Action where
  | command (c : Command)
  /-- `fork` returns a process id, or -1. -/
  | fork (chpid : Option ℤ)
  /-- `wait` returns a child with its status, or -1 where there is none. -/
  | wait (child : Option (ℤ × ℤ))
  | main
  | alarm
  deriving DecidableEq, Repr

namespace State

/-- The globals of the program before its first command. -/
def start : State := ⟨-1, fun _ => 0, [], false, .menu, [], []⟩

/-- `kill(childPidMas[i], ...)` -/
def kill (s : State) (i : ℤ) : State :=
  { s with
    kills := s.kills ++ [(s.childPidMas i, s.children)]
    indices := s.indices ++ [i] }

/-- `childPidMas[i] = v` -/
def store (s : State) (i v : ℤ) : State :=
  { s with
    childPidMas := Function.update s.childPidMas i v
    indices := s.indices ++ [i] }

/-- The `kill` calls on the first `n` entries. -/
def killFirst (s : State) (n : ℕ) : State :=
  (List.range n).foldl (fun (t : State) (i : ℕ) => t.kill i) s

/-- `for (int i = 0; i <= childCount; i++) kill(childPidMas[i], SIGUSR1)`, run by the handler. -/
def allowAllChildSendStats (s : State) : State := s.killFirst (s.childCount + 1).toNat

/-- `s` and `g`: the test `n <= childCount` has no lower bound. -/
def signalOne (s : State) : Option ℕ → Option State
  | some digits =>
    if digits < 10 ^ 18 then
      if atoi digits ≤ s.childCount then some (s.kill (atoi digits)) else some s
    else none
  | none => some { s with pc := .signalling 0 none }

/-- The `switch` of `main` up to the first use of the table. -/
def command (s : State) : Command → Option State
  | .plus => some { s with childCount := s.childCount + 1, pc := .forking }
  | .minus =>
    if s.childCount ≠ -1 then some { s with pc := .killing false s.childCount } else some s
  | .k =>
    if -1 < s.childCount then some { s with pc := .killing true s.childCount }
    else some { s with pc := .updating true }
  | .s digits => s.signalOne digits
  | .g digits => s.signalOne digits
  | .p n =>
    if n ≤ s.childCount ∧ 0 ≤ n then some { s with pc := .signalling 0 (some n) } else some s

/-- What follows a `wait` on entry `i`. -/
def afterWait (all : Bool) (i : ℤ) : Pc :=
  if all = true ∧ -1 < i - 1 then .killing true (i - 1) else .updating all

/-- The next statement that neither forks nor waits. -/
def stepMain (s : State) : Option State :=
  match s.pc with
  | .menu | .forking | .reaping _ _ => none
  | .storing chpid => some { s.store s.childCount chpid with pc := .menu }
  | .killing all i => some { s.kill i with pc := .reaping all i }
  | .updating false => some { s with childCount := s.childCount - 1, pc := .menu }
  | .updating true => some { s with childCount := -1, pc := .menu }
  | .signalling i n =>
    if i ≤ s.childCount then some { s.kill i with pc := .signalling (i + 1) n }
    else
      match n with
      | none => some { s with pc := .menu }
      | some n => some { s with pc := .arming n }
  | .arming n => some { s with armed := true, pc := .resuming n }
  | .resuming n => some { s.kill n with pc := .menu }

/-- One statement of `main`, or the handler between two of them. A child keeps its process id
until it is reaped. -/
def next (s : State) : Action → Option State
  | .command c => if s.pc = .menu then s.command c else none
  | .fork chpid =>
    if s.pc = .forking then
      match chpid with
      | some chpid =>
        if 0 < chpid ∧ chpid ∉ s.children then
          some { s with children := chpid :: s.children, pc := .storing chpid }
        else none
      | none => some { s with pc := .storing (-1) }
    else none
  | .wait child =>
    match s.pc with
    | .reaping all i =>
      match child with
      | some (chpid, status) =>
        if chpid ∈ s.children then
          some { s.store i status with
            children := s.children.filter (· ≠ chpid)
            pc := afterWait all i }
        else none
      | none => if s.children = [] then some { s with pc := afterWait all i } else none
    | _ => none
  | .main => s.stepMain
  | .alarm =>
    if s.armed = true then some { s.allowAllChildSendStats with armed := false } else none

/-- What the program owes: it signals only its own unreaped children and stays in its table. -/
structure Safe (s : State) : Prop where
  owned : ∀ k ∈ s.kills, k.1 ∈ k.2
  inTable : ∀ i ∈ s.indices, 0 ≤ i ∧ i < MAX_CHILD

end State

end OsispLabs.Lab3
