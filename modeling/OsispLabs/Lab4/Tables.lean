import OsispLabs.Lab4.Accounting

/-!
# The globals of main

`prodPidMas` and `consPidMas` have `MAX_CHILD` entries each, but `p+` and `c+` do not test it: the
next process id is stored behind the table, where other globals of main lie. What they are
afterwards is left open. `sigTERMsignalFlag` is one of them, and a child inherits main's at `fork`.
-/
namespace OsispLabs.Lab4
open Lib

def MAX_CHILD : ℕ := 20

/-- The system with main's own `sigTERMsignalFlag`. -/
structure Main (P C : Type*) where
  state : State P C
  sigTERMsignalFlag : Bool

/-- The globals of main that a store behind a table may reach. -/
structure Globals (P C : Type*) where
  sigTERMsignalFlag : Bool
  prodPidMas : List (Option P)
  consPidMas : List (Option C)

inductive MainAction (P C : Type*) where
  /-- A step of the system that stays inside the tables -/
  | inside (a : Action P C)
  /-- A `p+` or `c+` at a full table, with main's globals after it -/
  | overrun (a : Action P C) (globals : Globals P C)
  /-- `SIGUSR1` reaches main, which has the handler of its children -/
  | handlerSIGUSR1

variable {P C : Type*} [DecidableEq P] [DecidableEq C]

namespace State

/-- There is an entry for the process that is created. -/
def Fits (s : State P C) : Action P C → Prop
  | .createProducer _ => s.prodPidMas.length < MAX_CHILD
  | .createConsumer _ => s.consPidMas.length < MAX_CHILD
  | .producer _ _ | .consumer _ _ | .destroyProducer | .destroyConsumer => True

instance (s : State P C) : (a : Action P C) → Decidable (s.Fits a)
  | .createProducer _ | .createConsumer _ => inferInstanceAs (Decidable (_ < _))
  | .producer _ _ | .consumer _ _ | .destroyProducer | .destroyConsumer => isTrue trivial

/-- The child that the step has forked starts with the flag of main. -/
def inherit (s : State P C) (flag : Bool) : Action P C → State P C
  | .createProducer (some i) =>
    s.setProducer i { s.producer i with sigTERMsignalFlag := flag }
  | .createConsumer (some j) =>
    s.setConsumer j { s.consumer j with sigTERMsignalFlag := flag }
  | .createProducer none | .createConsumer none | .producer _ _ | .consumer _ _
  | .destroyProducer | .destroyConsumer => s

end State

namespace Main

def start : Main P C := ⟨.start, false⟩

def store (m : Main P C) (globals : Globals P C) : Main P C :=
  ⟨{ m.state with prodPidMas := globals.prodPidMas, consPidMas := globals.consPidMas },
    globals.sigTERMsignalFlag⟩

/-- A step of the system, in which a forked child inherits the flag. -/
def run (m : Main P C) (a : Action P C) : Option (Main P C) :=
  (m.state.next a).map fun s => { m with state := s.inherit m.sigTERMsignalFlag a }

def next (m : Main P C) : MainAction P C → Option (Main P C)
  | .inside a => if m.state.Fits a then m.run a else none
  | .overrun a globals => if m.state.Fits a then none else (m.run a).map (·.store globals)
  | .handlerSIGUSR1 => some { m with sigTERMsignalFlag := true }

end Main

/-- The step of the system that a step with main makes. -/
def MainAction.step : MainAction P C → Option (Action P C)
  | .inside a | .overrun a _ => some a
  | .handlerSIGUSR1 => none

/-- Two states of the system that differ in main's tables and in the flags of children just forked
only. -/
structure SameSystem (s t : State P C) : Prop where
  queue : t.queue = s.queue
  producer : ∀ i, t.producer i = s.producer i ∨ s.producer i = .born .generating ∧
    ∃ flag, t.producer i = { s.producer i with sigTERMsignalFlag := flag }
  consumer : ∀ j, t.consumer j = s.consumer j ∨ s.consumer j = .born .allocating ∧
    ∃ flag, t.consumer j = { s.consumer j with sigTERMsignalFlag := flag }

section

variable {s t : State P C} {m n : Main P C} {a : Action P C}

omit [DecidableEq P] [DecidableEq C] in
theorem SameSystem.refl (s : State P C) : SameSystem s s :=
  ⟨rfl, fun _ => .inl rfl, fun _ => .inl rfl⟩

theorem State.next_inherit (flag : Bool) (h : s.next a = some t) :
    SameSystem t (t.inherit flag a) := by
  cases a with
  | createProducer child =>
    cases child with
    | none => exact .refl t
    | some k =>
      simp only [next] at h
      split at h <;> cases h
      refine ⟨rfl, fun i => ?_, fun _ => .inl rfl⟩
      by_cases hi : i = k
      · subst hi
        exact .inr ⟨by simp [setProducer], flag, by simp [inherit, setProducer]⟩
      · exact .inl (by simp [inherit, setProducer, hi])
  | createConsumer child =>
    cases child with
    | none => exact .refl t
    | some k =>
      simp only [next] at h
      split at h <;> cases h
      refine ⟨rfl, fun _ => .inl rfl, fun j => ?_⟩
      by_cases hj : j = k
      · subst hj
        exact .inr ⟨by simp [setConsumer], flag, by simp [inherit, setConsumer]⟩
      · exact .inl (by simp [inherit, setConsumer, hj])
  | producer i move => exact .refl t
  | consumer j move => exact .refl t
  | destroyProducer => exact .refl t
  | destroyConsumer => exact .refl t

/-- A step with main is a step of the system, up to the flag of a child just forked. -/
theorem Main.next_step {b : MainAction P C} (hb : b.step = some a) (h : m.next b = some n) :
    ∃ s, m.state.next a = some s ∧ SameSystem s n.state := by
  cases b with
  | inside a' =>
    obtain rfl : a' = a := Option.some.inj hb
    simp only [next, run] at h
    split at h
    · obtain ⟨s, hs, rfl⟩ := Option.map_eq_some_iff.mp h
      exact ⟨s, hs, State.next_inherit _ hs⟩
    · cases h
  | overrun a' globals =>
    obtain rfl : a' = a := Option.some.inj hb
    simp only [next, run] at h
    split at h
    · cases h
    · obtain ⟨u, hu, rfl⟩ := Option.map_eq_some_iff.mp h
      obtain ⟨s, hs, rfl⟩ := Option.map_eq_some_iff.mp hu
      have hsame := State.next_inherit m.sigTERMsignalFlag hs
      exact ⟨s, hs, hsame.queue, hsame.producer, hsame.consumer⟩
  | handlerSIGUSR1 => cases hb

theorem Main.next_frame {b : MainAction P C} (hb : b.step = none) (h : m.next b = some n) :
    n.state = m.state := by
  cases b with
  | inside a | overrun a globals => cases hb
  | handlerSIGUSR1 =>
    cases h
    rfl

variable [Fintype P] [Fintype C]

omit [DecidableEq P] [DecidableEq C] in
theorem SameSystem.lawful (h : SameSystem s t) (hs : s.Lawful) : t.Lawful := by
  refine ⟨⟨fun i => ?_, fun j => ?_, ?_⟩, ?_⟩
  · rcases h.producer i with heq | ⟨hborn, flag, heq⟩
    · rw [heq]
      exact hs.sound.producer i
    · rw [heq, hborn]
      exact ⟨by simp [Process.born], rfl⟩
  · rcases h.consumer j with heq | ⟨-, flag, heq⟩
    · rw [heq]
      exact hs.sound.consumer j
    · have hlive := hs.sound.consumer j
      rw [heq]
      exact ⟨hlive.position, hlive.idle, hlive.moved, hlive.posted⟩
  · rw [h.queue]
    exact hs.sound.read
  · have hheld : total Process.held t.producer = total Process.held s.producer := by
      refine total_congr fun i => ?_
      rcases h.producer i with heq | ⟨-, flag, heq⟩ <;> rw [heq]
      rfl
    have htaken : total Process.taken t.consumer = total Process.taken s.consumer := by
      refine total_congr fun j => ?_
      rcases h.consumer j with heq | ⟨-, flag, heq⟩ <;> rw [heq]
    rw [State.Accounted, h.queue, hheld, htaken]
    exact hs.accounted

end

end OsispLabs.Lab4
