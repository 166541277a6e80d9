import OsispLabs.Lab7.Editor

/-!
# The journals of the sessions

The editor with a journal for each client: what it loaded, edited, declined and saved since it was
started, the latest first. The journals do not influence the clients.
-/
namespace OsispLabs.Lab7
open Lib

/-- What a session has done to `record`, `newRecord` and the file; `content` is that of record `k`,
if the file has the whole of it. -/
inductive Entry where
  | opened
  | loaded (k : ℤ) (content : Option Record)
  | edited (name address : Option (List UInt8)) (semester : Option UInt8)
  | declined (k : ℤ) (content : Option Record)
  | saved (k : ℤ) (content : Record)
  deriving DecidableEq

/-- The record that `record` was last filled from in the session, and its content. -/
def source : List Entry → Option (ℤ × Record)
  | .loaded k content :: _ | .declined k content :: _ => content.map (k, ·)
  | .edited .. :: entries | .saved .. :: entries => source entries
  | .opened :: _ | [] => none

/-- The content that the session has last loaded from record `k`. -/
def lastLoaded (k : ℤ) : List Entry → Option Record
  | .loaded m content :: entries | .declined m content :: entries =>
    if m = k then content else lastLoaded k entries
  | .edited .. :: entries | .saved .. :: entries => lastLoaded k entries
  | .opened :: _ | [] => none

/-- Where `newRecord` is what `modifyRecord` produced: the record that the edit was started from,
the content it had, and the product. -/
def edit : List Entry → Option (ℤ × Record × Record)
  | .edited name address semester :: entries => (source entries).map fun origin =>
    (origin.1, origin.2, origin.2.modifyRecord name address semester)
  | .loaded .. :: entries | .saved .. :: entries => edit entries
  | .declined .. :: _ | .opened :: _ | [] => none

/-- The editor with the journals. For each client there is also what the last `read` of one record
returned: the number of bytes, and the record that was to be read. -/
structure Journaled (I : Type*) where
  state : State I
  got : I → ℕ
  fetched : I → Option Record
  journal : I → List Entry

namespace Journaled

variable {I : Type*} [DecidableEq I]

def initial (file : File) : Journaled I :=
  ⟨.initial file, fun _ => 0, fun _ => none, fun _ => []⟩

/-- The last `read` of the client returned this. -/
def fetch (r : Journaled I) (i : I) : Journaled I :=
  { r with
    got := Function.update r.got i (r.state.file.readAt (r.state.session i).offset).length
    fetched := Function.update r.fetched i
      (r.state.file.recordAt (r.state.session i).currentRecord) }

def enter (r : Journaled I) (i : I) (entry : Entry) : Journaled I :=
  { r with journal := Function.update r.journal i (entry :: r.journal i) }

/-- The notes about a step, made before it. -/
def note (r : Journaled I) : Action I → Journaled I
  | .start i _ _ => r.enter i .opened
  | .rewrite i name address semester => r.enter i (.edited name address semester)
  | .transfer i _ =>
    let c := r.state.session i
    match c.pc with
    | .loadLocked =>
      (r.fetch i).enter i (.loaded c.currentRecord (r.state.file.recordAt c.currentRecord))
    | .saveLocked => r.fetch i
    | .writing _ => r.enter i (.saved c.currentRecord c.newRecord)
    | _ => r
  | .answer i symbol =>
    if symbol = 'n'.toUInt8 then
      r.enter i (.declined (r.state.session i).currentRecord (r.fetched i))
    else r
  | .print _ | .get .. | .save _ | .quit _ | .fcntl _ | .fail _ => r

section Notes

variable {r : Journaled I} {i j : I}

@[simp] theorem fetch_journal : (r.fetch i).journal = r.journal := rfl

@[simp] theorem enter_got (entry : Entry) : (r.enter i entry).got = r.got := rfl

@[simp] theorem enter_journal_self (entry : Entry) :
    (r.enter i entry).journal i = entry :: r.journal i := Function.update_self ..

theorem enter_journal_ne (entry : Entry) (hj : j ≠ i) :
    (r.enter i entry).journal j = r.journal j := Function.update_of_ne hj ..

theorem fetch_got_self :
    (r.fetch i).got i = (r.state.file.readAt (r.state.session i).offset).length :=
  Function.update_self ..

theorem fetch_fetched_self :
    (r.fetch i).fetched i = r.state.file.recordAt (r.state.session i).currentRecord :=
  Function.update_self ..

theorem fetch_got_ne (hj : j ≠ i) : (r.fetch i).got j = r.got j := Function.update_of_ne hj ..

theorem fetch_fetched_ne (hj : j ≠ i) : (r.fetch i).fetched j = r.fetched j :=
  Function.update_of_ne hj ..

end Notes

variable [Fintype I]

def next (r : Journaled I) (a : Action I) : Option (Journaled I) :=
  (r.state.next a).map fun s => { r.note a with state := s }

variable {r r' : Journaled I} {a : Action I}

theorem next_eq_some (h : r.next a = some r') :
    r.state.next a = some r'.state ∧ r' = { r.note a with state := r'.state } := by
  obtain ⟨s, hs, rfl⟩ := Option.map_eq_some_iff.mp h
  exact ⟨hs, rfl⟩

/-- The journals do not influence the clients. -/
theorem exec_map_state (r : Journaled I) (as : List (Action I)) :
    (exec next r as).map state = exec State.next r.state as := by
  apply exec_map
  intro r a
  rw [next, Option.map_map]
  exact Option.map_id'

omit [Fintype I] in
/-- The notes of a step are about the client that makes it. -/
theorem note_ne {t : State I} {i j : I} (h : State.Step r.state i a t) (hj : j ≠ i) :
    (r.note a).got j = r.got j ∧ (r.note a).fetched j = r.fetched j ∧
      (r.note a).journal j = r.journal j := by
  cases h with
  | start | rewrite => exact ⟨rfl, rfl, enter_journal_ne _ hj⟩
  | load junk hpc =>
    simp only [note, hpc]
    exact ⟨fetch_got_ne hj, fetch_fetched_ne hj, enter_journal_ne _ hj⟩
  | compareSame junk hpc hsame | compareChanged junk hpc hdiff =>
    simp only [note, hpc]
    exact ⟨fetch_got_ne hj, fetch_fetched_ne hj, rfl⟩
  | write junk prompted hpc =>
    simp only [note, hpc]
    exact ⟨rfl, rfl, enter_journal_ne _ hj⟩
  | readAll junk hpc => simp [note, hpc]
  | answerNo symbol tmpRecord hpc hno =>
    simp only [note, if_pos hno]
    exact ⟨rfl, rfl, enter_journal_ne _ hj⟩
  | answerYes symbol tmpRecord hpc hyes => simp [note, hyes]
  | print | getTooBig | get | save | quit | lockAll | unlockAll | lockRead | unlockRead
  | lockWrite | unlockWrite | fail => exact ⟨rfl, rfl, rfl⟩

end Journaled

end OsispLabs.Lab7
