import OsispLabs.Lab8.Command
import OsispLabs.Lib.Descriptor
import OsispLabs.Lib.Execution

/-!
# Descriptors of the server

Sessions of `server.c` on one descriptor table: the connections that `accept` opens, the info
file and the directory streams. Session `i` serves connection `i`. A session stops before every
system call, so `accept` and the other sessions can move in between.
-/
namespace OsispLabs.Lab8.Descriptors
open Lib

/-- What a descriptor stands for. -/
inductive Owner where
  | standard
  | listening
  | connection (i : ℕ)
  | infoFile (i : ℕ)
  | directory (i : ℕ)
  deriving DecidableEq, Repr

/-- Where a session stands: in `sendInfoAboutServer` (`opening`, `reading`), at a `sendMessage`,
at `waitMessage`, in `sendDirectoryListing` (`finding`, `listing`), in the `QUIT` case
(`parting`, `leaving`), after the loop (`ended`), or at the `close` and the `exit` that follow a
failed transfer. -/
inductive Pc where
  | opening
  | reading (file : ℕ)
  | sending
  | receiving
  | finding
  | listing (dir : ℕ)
  | parting
  | leaving
  | ended
  | finished
  | failing
  | exiting
  deriving DecidableEq, Repr

structure Session where
  socket : ℕ
  pc : Pc
  deriving DecidableEq, Repr

/-- A `close`: the session, the object it means to close, and what the descriptor stood for. -/
structure Close where
  session : ℕ
  intended : Owner
  actual : Option Owner
  deriving DecidableEq, Repr

/-- The process, with its `close` calls, the latest first. -/
structure State where
  table : Table Owner
  sessions : List Session
  running : Bool
  log : List Close
  deriving DecidableEq, Repr

/-- An `accept` that succeeds or fails (or one whose `pthread_create` fails), the end of the process
from outside, or a session's next system call: it succeeds, it fails, or it is a `read` that returns
a message. -/
inductive Action where
  | accept
  | acceptFails
  | kill
  | succeed (i : ℕ)
  | fail (i : ℕ)
  | receive (i : ℕ) (message : List Char)
  deriving DecidableEq, Repr

namespace State

/-- The server before its first `accept`. -/
def start : State :=
  ⟨[some .standard, some .standard, some .standard, some .listening], [], true, []⟩

def goto (s : State) (i : ℕ) (c : Session) (pc : Pc) : State :=
  { s with sessions := s.sessions.set i { c with pc := pc } }

/-- Open an object for session `i`, which goes on at `pc` of the new descriptor. -/
def acquire (s : State) (i : ℕ) (c : Session) (owner : Owner) (pc : ℕ → Pc) : State :=
  { s.goto i c (pc s.table.lowest) with table := s.table.opened owner }

/-- `close(fd)` by session `i`. -/
def release (s : State) (i : ℕ) (c : Session) (fd : ℕ) (intended : Owner) (pc : Pc) : State :=
  { s.goto i c pc with
    table := s.table.closed fd
    log := ⟨i, intended, s.table.lookup fd⟩ :: s.log }

/-- The process ends. -/
def halt (s : State) : State := { s with running := false }

/-- The next call of session `i` when it succeeds. -/
def succeed (s : State) (i : ℕ) (c : Session) : Option State :=
  match c.pc with
  | .opening => some (s.acquire i c (.infoFile i) .reading)
  | .reading file => some (s.release i c file (.infoFile i) .sending)
  | .sending => some (s.goto i c .receiving)
  | .finding => some (s.acquire i c (.directory i) .listing)
  | .listing dir => some (s.release i c dir (.directory i) .sending)
  | .parting => some (s.goto i c .leaving)
  | .leaving => some (s.release i c c.socket (.connection i) .ended)
  | .ended => some (s.release i c c.socket (.connection i) .finished)
  | .failing => some (s.release i c c.socket (.connection i) .exiting)
  | .exiting => some s.halt
  | .receiving | .finished => none

/-- The next call of session `i` when it fails. Where `open` or `opendir` fail, `sendMessage`
appends to a string literal, which ends the process. -/
def fail (s : State) (i : ℕ) (c : Session) : Option State :=
  match c.pc with
  | .opening | .finding => some s.halt
  | .sending | .receiving | .listing _ | .parting => some (s.goto i c .failing)
  | .reading _ | .leaving | .ended | .failing | .exiting | .finished => none

/-- The `switch` of `waitConnection`. -/
def dispatch : Command → Pc
  | .quit => .parting
  | .info => .opening
  | .list => .finding
  | .echo | .cd | .unknown => .sending

def next (s : State) (a : Action) : Option State :=
  if s.running then
    match a with
    | .accept => some { s with
        table := s.table.opened (.connection s.sessions.length)
        sessions := s.sessions ++ [⟨s.table.lowest, .opening⟩] }
    | .acceptFails => some s.halt
    | .kill => some s.halt
    | .succeed i => s.sessions[i]?.bind fun c => s.succeed i c
    | .fail i => s.sessions[i]?.bind fun c => s.fail i c
    | .receive i message => s.sessions[i]?.bind fun c =>
      if c.pc = .receiving then some (s.goto i c (dispatch (parseCommand message))) else none
  else none

end State

/-- The connection has not been closed by its session. -/
def Pc.connected : Pc → Bool
  | .ended | .finished | .exiting => false
  | .opening | .reading _ | .sending | .receiving | .finding | .listing _ | .parting | .leaving |
    .failing => true

/-- The object besides the connection that session `i` has open. -/
def Pc.holds (i : ℕ) : Pc → Option (ℕ × Owner)
  | .reading file => some (file, .infoFile i)
  | .listing dir => some (dir, .directory i)
  | .opening | .sending | .receiving | .finding | .parting | .leaving | .ended | .finished |
    .failing | .exiting => none

/-- A transition of the session itself, without `open` or `close`. -/
structure Pc.Moves (pc pc' : Pc) : Prop where
  connected : pc'.connected = pc.connected
  holds : ∀ i, pc'.holds i = none

/-- A `close` of the connection, by the three places that make one. -/
inductive Pc.Closes : Pc → Pc → Prop
  | quit : Closes .leaving .ended
  | afterLoop : Closes .ended .finished
  | failure : Closes .failing .exiting

namespace State

/-- What each operation does. -/
inductive Step (s : State) : Action → State → Prop
  | accept : Step s .accept { s with
      table := s.table.opened (.connection s.sessions.length)
      sessions := s.sessions ++ [⟨s.table.lowest, .opening⟩] }
  | halt (a : Action) : Step s a s.halt
  | move (a : Action) (i : ℕ) (c : Session) (pc : Pc) (hc : s.sessions[i]? = some c)
      (hmove : c.pc.Moves pc) (hnot : a ≠ .succeed i ∨ c.pc ≠ .ended) : Step s a (s.goto i c pc)
  | openInfo (i : ℕ) (c : Session) (hc : s.sessions[i]? = some c) (hpc : c.pc = .opening) :
    Step s (.succeed i) (s.acquire i c (.infoFile i) .reading)
  | closeInfo (i : ℕ) (c : Session) (file : ℕ) (hc : s.sessions[i]? = some c)
      (hpc : c.pc = .reading file) :
    Step s (.succeed i) (s.release i c file (.infoFile i) .sending)
  | openDir (i : ℕ) (c : Session) (hc : s.sessions[i]? = some c) (hpc : c.pc = .finding) :
    Step s (.succeed i) (s.acquire i c (.directory i) .listing)
  | closeDir (i : ℕ) (c : Session) (dir : ℕ) (hc : s.sessions[i]? = some c)
      (hpc : c.pc = .listing dir) :
    Step s (.succeed i) (s.release i c dir (.directory i) .sending)
  | closeSocket (i : ℕ) (c : Session) (pc : Pc) (hc : s.sessions[i]? = some c)
      (hpc : c.pc.Closes pc) :
    Step s (.succeed i) (s.release i c c.socket (.connection i) pc)

theorem succeed_step {s t : State} {i : ℕ} {c : Session} (hc : s.sessions[i]? = some c)
    (h : s.succeed i c = some t) : Step s (.succeed i) t := by
  unfold succeed at h
  split at h
  · cases h
    exact .openInfo i c hc ‹_›
  · cases h
    exact .closeInfo i c _ hc ‹_›
  · cases h
    exact .move _ i c _ hc (by rw [‹c.pc = _›]; exact ⟨rfl, fun _ => rfl⟩)
      (.inr (by rw [‹c.pc = _›]; nofun))
  · cases h
    exact .openDir i c hc ‹_›
  · cases h
    exact .closeDir i c _ hc ‹_›
  · cases h
    exact .move _ i c _ hc (by rw [‹c.pc = _›]; exact ⟨rfl, fun _ => rfl⟩)
      (.inr (by rw [‹c.pc = _›]; nofun))
  · cases h
    exact .closeSocket i c _ hc (by rw [‹c.pc = _›]; exact .quit)
  · cases h
    exact .closeSocket i c _ hc (by rw [‹c.pc = _›]; exact .afterLoop)
  · cases h
    exact .closeSocket i c _ hc (by rw [‹c.pc = _›]; exact .failure)
  · cases h
    exact .halt _
  all_goals cases h

theorem fail_step {s t : State} {i : ℕ} {c : Session} (hc : s.sessions[i]? = some c)
    (h : s.fail i c = some t) : Step s (.fail i) t := by
  unfold fail at h
  split at h
  all_goals cases h
  · exact .halt _
  · exact .halt _
  · exact .move _ i c _ hc (by rw [‹c.pc = _›]; exact ⟨rfl, fun _ => rfl⟩) (.inl nofun)
  · exact .move _ i c _ hc (by rw [‹c.pc = _›]; exact ⟨rfl, fun _ => rfl⟩) (.inl nofun)
  · exact .move _ i c _ hc (by rw [‹c.pc = _›]; exact ⟨rfl, fun _ => rfl⟩) (.inl nofun)
  · exact .move _ i c _ hc (by rw [‹c.pc = _›]; exact ⟨rfl, fun _ => rfl⟩) (.inl nofun)

theorem dispatch_moves (command : Command) : Pc.receiving.Moves (dispatch command) := by
  cases command <;> exact ⟨rfl, fun _ => rfl⟩

/-- Every computed step is one of the operations. -/
theorem next_step {s t : State} {a : Action} (h : s.next a = some t) : Step s a t := by
  unfold next at h
  split at h
  · cases a with
    | accept =>
      cases h
      exact .accept
    | acceptFails | kill =>
      cases h
      exact .halt _
    | succeed i =>
      obtain ⟨c, hc, h⟩ := Option.bind_eq_some_iff.mp h
      exact succeed_step hc h
    | fail i =>
      obtain ⟨c, hc, h⟩ := Option.bind_eq_some_iff.mp h
      exact fail_step hc h
    | receive i message =>
      obtain ⟨c, hc, h⟩ := Option.bind_eq_some_iff.mp h
      split at h
      · cases h
        exact .move _ i c _ hc (by rw [‹c.pc = _›]; exact dispatch_moves _) (.inl nofun)
      · cases h
  · cases h

section Goto

variable {s : State} {i j : ℕ} {c d : Session}

theorem getElem?_goto (s : State) (i : ℕ) (c : Session) (pc : Pc) (j : ℕ) :
    (s.goto i c pc).sessions[j]? =
      if i = j then if i < s.sessions.length then some { c with pc := pc } else none
      else s.sessions[j]? := List.getElem?_set

theorem goto_self (hc : s.sessions[i]? = some c) (pc : Pc) :
    (s.goto i c pc).sessions[i]? = some { c with pc := pc } := by
  have hlt : i < s.sessions.length := (List.getElem?_eq_some_iff.mp hc).1
  rw [getElem?_goto, if_pos rfl, if_pos hlt]

theorem goto_ne (h : i ≠ j) (c : Session) (pc : Pc) :
    (s.goto i c pc).sessions[j]? = s.sessions[j]? := by
  rw [getElem?_goto, if_neg h]

/-- The session at index `j` after session `i` moved: the moved one or an old one. -/
theorem goto_cases (hc : s.sessions[i]? = some c) {pc : Pc}
    (h : (s.goto i c pc).sessions[j]? = some d) :
    (i = j ∧ d = { c with pc := pc }) ∨ (i ≠ j ∧ s.sessions[j]? = some d) := by
  by_cases hij : i = j
  · subst hij
    rw [goto_self hc] at h
    exact .inl ⟨rfl, (Option.some.inj h).symm⟩
  · rw [goto_ne hij] at h
    exact .inr ⟨hij, h⟩

end Goto

end State

end OsispLabs.Lab8.Descriptors
