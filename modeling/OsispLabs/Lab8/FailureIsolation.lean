import OsispLabs.Lab8.Descriptors

/-!
# What a failed connection ends

A disconnect, a failing `read` or a failing `send` takes a session to its `close` and its `exit`,
a `send` on a connection that the client has closed raises `SIGPIPE`, and a failing `accept` takes
`main` to its `exit`. Each ends the whole process: from then on `main` accepts no connection and no
session is served.
-/
namespace OsispLabs.Lab8.Descriptors
open Lib

/-- The session is at a `send`. -/
def Pc.sends : Pc → Bool
  | .sending | .listing _ | .parting => true
  | .opening | .reading _ | .receiving | .finding | .leaving | .ended | .finished | .failing |
    .exiting => false

/-- An action of the server, or the `SIGPIPE` of a `send` by session `i`. Nothing handles the
signal. -/
inductive Event where
  | action (a : Action)
  | sigpipe (i : ℕ)
  deriving DecidableEq

/-- The server with what happened to it last. -/
structure Watched where
  state : State
  last : Option Event

/-- The session is at a `send` or `read` of its connection. -/
def Pc.transfers : Pc → Bool
  | .sending | .receiving | .listing _ | .parting => true
  | .opening | .reading _ | .finding | .leaving | .ended | .finished | .failing | .exiting => false

/-- A transfer has failed. -/
def Pc.failed : Pc → Bool
  | .failing | .exiting => true
  | .opening | .reading _ | .sending | .receiving | .finding | .listing _ | .parting | .leaving |
    .ended | .finished => false

namespace State

/-- The step is neither a failed transfer nor a failed `accept`. -/
def Undisturbed (s : State) : Action → Prop
  | .fail i => (s.sessions[i]?.any fun c => c.pc.transfers) = false
  | .acceptFails => False
  | .accept | .kill | .succeed _ | .receive _ _ => True

instance (s : State) : (a : Action) → Decidable (s.Undisturbed a)
  | .fail _ => inferInstanceAs (Decidable (_ = _))
  | .acceptFails => isFalse id
  | .accept | .kill | .succeed _ | .receive _ _ => isTrue trivial

/-- `main` accepts the next connection, and every session that is not over can go on, with its next
call or when its client sends a message. -/
def Serving (s : State) : Prop :=
  (s.next .accept).isSome ∧ ∀ (i : ℕ) (c : Session), s.sessions[i]? = some c → c.pc ≠ .finished →
    (s.next (.succeed i)).isSome ∨ ∀ message, (s.next (.receive i message)).isSome

variable {s t : State} {a : Action} {i j : ℕ} {c : Session}

theorem serving_of_running (h : s.running = true) : s.Serving := by
  constructor
  · simp [next, h]
  · intro i c hc hpc
    cases hold : c.pc with
    | receiving =>
      right
      intro message
      simp [next, h, hc, hold]
    | finished => exact absurd hold hpc
    | _ =>
      left
      simp [next, h, hc, succeed, hold]

theorem not_serving_of_ended (h : s.running = false) : ¬ s.Serving := fun hs => by
  have haccept := hs.1
  simp [next, h] at haccept

theorem acceptFails_ends (h : s.next .acceptFails = some t) : t.running = false := by
  unfold next at h
  split at h <;> cases h
  rfl

/-- A call of one session leaves all other sessions where they are. -/
theorem sessions_ne (ha : a = .succeed i ∨ a = .fail i) (h : s.next a = some t) (hj : i ≠ j) :
    t.sessions[j]? = s.sessions[j]? := by
  have hset : ∀ d : Session, (s.sessions.set i d)[j]? = s.sessions[j]? :=
    fun d => List.getElem?_set_ne hj
  unfold next at h
  split at h
  · rcases ha with rfl | rfl
    · obtain ⟨c, -, h⟩ := Option.bind_eq_some_iff.mp h
      unfold succeed at h
      split at h <;> cases h <;> first | exact hset _ | rfl
    · obtain ⟨c, -, h⟩ := Option.bind_eq_some_iff.mp h
      unfold fail at h
      split at h <;> cases h <;> first | exact hset _ | rfl
  · cases h

/-- No session is on its way to `exit`. -/
structure Healthy (s : State) : Prop where
  running : s.running = true
  sound : ∀ c ∈ s.sessions, c.pc.failed = false

theorem start_healthy : start.Healthy := ⟨rfl, by simp [start]⟩

theorem Healthy.set (h : s.Healthy) {d : Session} (hd : d.pc.failed = false) :
    ∀ c ∈ s.sessions.set i d, c.pc.failed = false := by
  intro c hc
  rcases List.mem_or_eq_of_mem_set hc with hold | rfl
  · exact h.sound c hold
  · exact hd

theorem succeed_healthy (h : s.Healthy) (hc : s.sessions[i]? = some c)
    (hnext : s.succeed i c = some t) : t.Healthy := by
  have hsound := h.sound c (List.mem_of_getElem? hc)
  unfold succeed at hnext
  split at hnext
  case h_9 hpc | h_10 hpc => simp [hpc, Pc.failed] at hsound
  case h_11 | h_12 => cases hnext
  all_goals
    cases hnext
    exact ⟨h.running, h.set rfl⟩

theorem dispatch_failed (command : Command) : (dispatch command).failed = false := by
  cases command <;> rfl

/-- A step that is no failed transfer and no failed `accept` keeps the server going, unless it ends
the process from outside or at an `open` or `opendir` that fails. -/
theorem next_healthy (h : s.Healthy) (hok : s.Undisturbed a) (hnext : s.next a = some t) :
    t.Healthy ∨ t.running = false ∧ (a = .kill ∨ ∃ i, a = .fail i) := by
  unfold next at hnext
  rw [if_pos h.running] at hnext
  cases a with
  | accept =>
    cases hnext
    refine .inl ⟨h.running, fun c hc => ?_⟩
    rcases List.mem_append.mp hc with hold | hnew
    · exact h.sound c hold
    · rw [List.mem_singleton.mp hnew]
      rfl
  | acceptFails => exact hok.elim
  | kill =>
    cases hnext
    exact .inr ⟨rfl, .inl rfl⟩
  | succeed i =>
    obtain ⟨c, hc, hnext⟩ := Option.bind_eq_some_iff.mp hnext
    exact .inl (succeed_healthy h hc hnext)
  | fail i =>
    obtain ⟨c, hc, hnext⟩ := Option.bind_eq_some_iff.mp hnext
    refine .inr ⟨?_, .inr ⟨i, rfl⟩⟩
    simp only [Undisturbed, hc, Option.any_some] at hok
    unfold fail at hnext
    split at hnext
    case h_3 hpc | h_4 hpc | h_5 hpc | h_6 hpc => simp [hpc, Pc.transfers] at hok
    all_goals
      cases hnext
      try rfl
  | receive i message =>
    obtain ⟨c, -, hnext⟩ := Option.bind_eq_some_iff.mp hnext
    split at hnext
    · cases hnext
      exact .inl ⟨h.running, h.set (dispatch_failed _)⟩
    · cases hnext

theorem next_succeed (hrunning : s.running = true) (hc : s.sessions[i]? = some c) :
    s.next (.succeed i) = s.succeed i c := by
  rw [next, if_pos hrunning]
  simp only [hc, Option.bind_some]

/-- After a transfer has failed, the next two calls of its session end the server. -/
theorem fail_ends (htransfer : (s.sessions[i]?.any fun c => c.pc.transfers) = true)
    (h : s.next (.fail i) = some t) :
    ∃ u v, t.next (.succeed i) = some u ∧ u.next (.succeed i) = some v ∧ v.running = false := by
  unfold next at h
  split at h
  case isFalse => cases h
  case isTrue hrunning =>
  obtain ⟨c, hc, h⟩ := Option.bind_eq_some_iff.mp h
  rw [hc, Option.any_some] at htransfer
  have ht : t = s.goto i c .failing := by
    unfold fail at h
    split at h
    case h_1 hpc | h_2 hpc => simp [hpc, Pc.transfers] at htransfer
    all_goals
      cases h
      try rfl
  subst ht
  let d : Session := { c with pc := .failing }
  let e : Session := { c with pc := .exiting }
  let u := (s.goto i c .failing).release i d c.socket (.connection i) .exiting
  have hrunning' : (s.goto i c .failing).running = true := hrunning
  have hd : (s.goto i c .failing).sessions[i]? = some d := goto_self hc .failing
  have hclose : (s.goto i c .failing).next (.succeed i) = some u := next_succeed hrunning' hd
  have hu : u.running = true := hrunning
  have he : u.sessions[i]? = some e := goto_self hd .exiting
  have hexit : u.next (.succeed i) = some u.halt := next_succeed hu he
  exact ⟨u, u.halt, hclose, hexit, rfl⟩

end State

namespace Watched

def start : Watched := ⟨.start, none⟩

def next (r : Watched) : Event → Option Watched
  | .action a => (r.state.next a).map fun s => ⟨s, some (.action a)⟩
  | .sigpipe i =>
    if r.state.running ∧ (r.state.sessions[i]?.any fun c => c.pc.sends) then
      some ⟨r.state.halt, some (.sigpipe i)⟩
    else none

/-- The process was ended from outside, or where `open` or `opendir` fail. -/
def Excused (r : Watched) : Prop :=
  r.state.running = false ∧ (r.last = some (.action .kill) ∨ ∃ i, r.last = some (.action (.fail i)))

/-- No transfer fails in the step, and no `accept`. -/
def Undisturbed (r : Watched) : Event → Prop
  | .action a => r.state.Undisturbed a
  | .sigpipe _ => False

instance (r : Watched) : (e : Event) → Decidable (r.Undisturbed e)
  | .action a => inferInstanceAs (Decidable (r.state.Undisturbed a))
  | .sigpipe _ => isFalse id

/-- Whatever comes next, as long as no further transfer fails, the server serves everyone or has
been ended by something else than a connection. -/
def Isolated (r : Watched) : Prop :=
  ∀ (es : List Event) (r' : Watched), StepsMeet next Undisturbed r es → exec next r es = some r' →
    r'.state.Serving ∨ r'.Excused

/-- The invariant of runs without failed transfers. -/
def Sound (r : Watched) : Prop := r.state.Healthy ∨ r.Excused

variable {r r' : Watched} {a : Action} {e : Event} {i : ℕ}

theorem next_action (h : r.next (.action a) = some r') :
    r.state.next a = some r'.state ∧ r'.last = some (.action a) := by
  obtain ⟨s, hs, rfl⟩ := Option.map_eq_some_iff.mp h
  exact ⟨hs, rfl⟩

theorem next_sigpipe (h : r.next (.sigpipe i) = some r') :
    r'.state.running = false ∧ r'.last = some (.sigpipe i) := by
  obtain ⟨-, rfl⟩ := Option.ite_none_right_eq_some.mp h |>.imp_right Option.some.inj
  exact ⟨rfl, rfl⟩

theorem next_sound (hs : r.Sound) (hok : r.Undisturbed e) (h : r.next e = some r') : r'.Sound := by
  cases e with
  | sigpipe i => exact hok.elim
  | action a =>
    obtain ⟨hstate, hlast⟩ := next_action h
    rcases hs with hhealthy | ⟨hended, -⟩
    · rcases State.next_healthy hhealthy hok hstate with hkept | ⟨hended, rfl | ⟨i, rfl⟩⟩
      · exact .inl hkept
      · exact .inr ⟨hended, .inl hlast⟩
      · exact .inr ⟨hended, .inr ⟨i, hlast⟩⟩
    · simp [State.next, hended] at hstate

theorem Sound.isolated (hs : r.Sound) : r.Isolated := by
  intro es r' hok hrun
  have hend := exec_invariant_of_steps (fun _ _ _ => next_sound) hs hok hrun
  exact hend.imp_left fun hhealthy => State.serving_of_running hhealthy.running

/-- The server has been ended by a connection or by `main`. -/
theorem not_isolated_of_last (hended : r.state.running = false) (hlast : r.last = some e)
    (hkill : e ≠ .action .kill) (hfail : ∀ i, e ≠ .action (.fail i)) : ¬ r.Isolated := by
  intro hisolated
  rcases hisolated [] r trivial rfl with hserving | ⟨-, hlast' | ⟨i, hlast'⟩⟩
  · exact State.not_serving_of_ended hended hserving
  · exact hkill (Option.some.inj (hlast.symm.trans hlast'))
  · exact hfail i (Option.some.inj (hlast.symm.trans hlast'))

/-- After a failed transfer the server goes on until its session comes to `exit`. -/
theorem fail_not_isolated
    (htransfer : (r.state.sessions[i]?.any fun c => c.pc.transfers) = true)
    (h : r.next (.action (.fail i)) = some r') : ¬ r'.Isolated := by
  obtain ⟨hstate, -⟩ := next_action h
  obtain ⟨u, v, hu, hv, hended⟩ := State.fail_ends htransfer hstate
  have hclose : r'.next (.action (.succeed i)) = some ⟨u, some (.action (.succeed i))⟩ := by
    rw [next, hu, Option.map_some]
  have hexit : next ⟨u, some (.action (.succeed i))⟩ (.action (.succeed i)) =
      some ⟨v, some (.action (.succeed i))⟩ := by
    rw [next, hv, Option.map_some]
  have hrun : exec next r' [.action (.succeed i), .action (.succeed i)] =
      some ⟨v, some (.action (.succeed i))⟩ := by
    rw [exec_cons, hclose, Option.bind_some, exec_cons, hexit]
    rfl
  have hok : StepsMeet next Undisturbed r' [.action (.succeed i), .action (.succeed i)] := by
    simp [StepsMeet, Undisturbed, State.Undisturbed, hclose, hexit]
  intro hisolated
  rcases hisolated _ _ hok hrun with hserving | ⟨-, hlast | ⟨j, hlast⟩⟩
  · exact State.not_serving_of_ended hended hserving
  · simp at hlast
  · simp at hlast

theorem next_not_isolated (hnot : ¬ r.Undisturbed e) (h : r.next e = some r') : ¬ r'.Isolated := by
  cases e with
  | sigpipe i =>
    obtain ⟨hended, hlast⟩ := next_sigpipe h
    exact not_isolated_of_last hended hlast (by simp) (by simp)
  | action a =>
    cases a with
    | acceptFails =>
      obtain ⟨hstate, hlast⟩ := next_action h
      exact not_isolated_of_last (State.acceptFails_ends hstate) hlast (by simp) (by simp)
    | fail i => exact fail_not_isolated (by simpa [Undisturbed, State.Undisturbed] using hnot) h
    | accept | kill | succeed i | receive i message => exact absurd trivial hnot

/-- In every interleaving of any number of sessions, the server serves everyone in every state and
from there on, unless it is ended otherwise, exactly if no transfer, no `accept` fails. -/
theorem run_isolated_iff (es : List Event) (r : Watched) (hrun : exec next start es = some r) :
    Throughout next Isolated start es ↔ StepsMeet next Undisturbed start es :=
  throughout_iff_stepsMeet (fun _ _ _ => next_sound) (fun _ => Sound.isolated)
    (fun _ _ _ _ => next_not_isolated) (.inl State.start_healthy) hrun

/-- Two clients come and get the first message. -/
def twoClients : List Event :=
  [.accept, .accept, .succeed 0, .succeed 1, .succeed 0, .succeed 1, .succeed 0, .succeed 1].map
    .action

/-- The first one quits, the second one goes on. -/
def politeClients : List Event :=
  twoClients ++ [.receive 0 "quit".toList, .succeed 0, .succeed 0, .succeed 0,
    .receive 1 "info".toList, .succeed 1].map .action

theorem run_isolated_politeClients :
    (exec next start politeClients).isSome ∧ Throughout next Isolated start politeClients := by
  have hsome : (exec next start politeClients).isSome := by decide
  obtain ⟨r, hrun⟩ := Option.isSome_iff_exists.mp hsome
  exact ⟨hsome, (run_isolated_iff politeClients r hrun).mpr (by decide)⟩

/-- The first one disconnects while both are at their prompts. -/
def disconnect : List Event := twoClients ++ [.fail 0, .succeed 0, .succeed 0].map .action

/-- The second session waits for a message, and the server makes no step any more. -/
theorem disconnect_not_isolated : ∃ r, exec next start disconnect = some r ∧ ¬ r.Isolated ∧
    r.state.sessions[1]?.map Session.pc = some .receiving ∧ ∀ a, r.state.next a = none := by
  have hrun : exec next start disconnect = some _ := rfl
  exact ⟨_, hrun, not_isolated_of_last rfl rfl (by simp) (by simp), rfl, fun a => rfl⟩

end Watched

end OsispLabs.Lab8.Descriptors
