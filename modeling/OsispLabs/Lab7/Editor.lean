import OsispLabs.Lab7.Record
import OsispLabs.Lib.Execution
import OsispLabs.Lib.RangeLock

/-!
# The record editor

Any number of client processes of `main.c` on one file. A client stops before every `fcntl`,
`read`, `write` and prompt, so the others can move in between. What the environment decides is
part of the action: the command and its input, a failing `fcntl`, the bytes that a local
`record_s` happens to hold.
-/
namespace OsispLabs.Lab7
open Lib

/-- Where a client stands: outside the program, at its menu, in `printAllFile`, in
`getRecordNumb` (from `loading`) or in `saveRecord` (from `saving`). -/
inductive Pc where
  | closed
  | menu
  | printing
  | printLocked
  | printed
  | loading
  | loadLocked
  | loaded
  | saving
  | saveLocked
  | prompting (tmpRecord : Record)
  | writing (prompted : Bool)
  | written
  deriving DecidableEq

/-- The client is at an `fcntl`. -/
def Pc.calls : Pc → Bool
  | .printing | .printed | .loading | .loaded | .saving | .written => true
  | .closed | .menu | .printLocked | .loadLocked | .saveLocked | .prompting _ | .writing _ => false

/-- The variables of `main` and the offset of the open file. -/
structure Session where
  pc : Pc
  offset : ℕ
  size : ℤ
  currentRecord : ℤ
  record : Record
  newRecord : Record
  deriving DecidableEq

/-- What is recorded of a run: that a client compared record `k` without finding a change, and
every write, with the content it replaces and the writer's `oldRecord`. -/
inductive Event (I : Type*) where
  | compared (i : I) (k : ℤ)
  | wrote (i : I) (k : ℤ) (prompted : Bool) (before : Option Record) (oldRecord : Record)

/-- The file, its locks, the clients, and the events with the latest first. -/
structure State (I : Type*) where
  file : File
  locks : I → LockMap
  session : I → Session
  log : List (Event I)

/-- One operation of a client: a start with the initial contents of its variables, a command, an
`fcntl` that succeeds or fails, or another step of the command. -/
inductive Action (I : Type*) where
  | start (i : I) (record newRecord : Record)
  | print (i : I)
  | get (i : I) (n : ℤ)
  | rewrite (i : I) (name address : Option (List UInt8)) (semester : Option UInt8)
  | save (i : I)
  | quit (i : I)
  | fcntl (i : I)
  | fail (i : I)
  | transfer (i : I) (junk : Record)
  | answer (i : I) (symbol : UInt8)
  deriving DecidableEq

/-- `lseek(file, numb * sizeof(record_s), SEEK_SET)`, which refuses a negative offset. -/
def seek (offset : ℕ) (numb : ℤ) : ℕ :=
  if 0 ≤ numb then recordSize * numb.toNat else offset

/-- `size` counts no record that the file does not have. -/
theorem size_le (length : ℕ) :
    Int.bmod (length / recordSize) (2 ^ 32) ≤ ((length / recordSize : ℕ) : ℤ) := by
  rw [Int.natCast_ediv]
  simp only [recordSize, Int.bmod_def]
  omega

variable {I : Type*} [DecidableEq I]

namespace State

/-- A file that nobody has opened. -/
def initial (file : File) : State I :=
  ⟨file, fun _ => .empty, fun _ => ⟨.closed, 0, 0, 0, .zero, .zero⟩, []⟩

def setSession (s : State I) (i : I) (c : Session) : State I :=
  { s with session := Function.update s.session i c }

/-- Client `i` goes on at `pc`. -/
def goto (s : State I) (i : I) (pc : Pc) : State I :=
  s.setSession i { s.session i with pc := pc }

/-- `fcntl(F_SETLKW)` with `F_UNLCK`, after which the command is over. -/
def unlock (s : State I) (i : I) (r : ByteRange) : State I :=
  { s.goto i .menu with locks := setLock s.locks i r .free }

@[simp] theorem setSession_self (s : State I) (i : I) (c : Session) :
    (s.setSession i c).session i = c := by
  simp [setSession]

@[simp] theorem setSession_file (s : State I) (i : I) (c : Session) :
    (s.setSession i c).file = s.file := rfl

@[simp] theorem setSession_locks (s : State I) (i : I) (c : Session) :
    (s.setSession i c).locks = s.locks := rfl

@[simp] theorem goto_self (s : State I) (i : I) (pc : Pc) :
    (s.goto i pc).session i = { s.session i with pc := pc } :=
  setSession_self s i _

@[simp] theorem goto_locks (s : State I) (i : I) (pc : Pc) : (s.goto i pc).locks = s.locks := rfl

@[simp] theorem unlock_self (s : State I) (i : I) (r : ByteRange) :
    (s.unlock i r).session i = { s.session i with pc := .menu } :=
  goto_self s i .menu

@[simp] theorem unlock_locks (s : State I) (i : I) (r : ByteRange) :
    (s.unlock i r).locks = setLock s.locks i r .free := rfl

variable [Fintype I]

/-- `fcntl(F_SETLKW)` with a lock: it waits until the range is grantable. -/
def lock (s : State I) (i : I) (r : ByteRange) (k : Lock) (pc : Pc) : Option (State I) :=
  if Grantable s.locks i r k then
    some { s.goto i pc with locks := setLock s.locks i r k }
  else none

/-- The `fcntl` that client `i` has reached, when it succeeds. In `getRecordNumb` the range to
unlock starts one record before the offset; before the start of the file the call fails. -/
def stepFcntl (s : State I) (i : I) : Option (State I) :=
  let c := s.session i
  match c.pc with
  | .printing => s.lock i ⟨0, 0⟩ .read .printLocked
  | .printed => some (s.unlock i ⟨0, 0⟩)
  | .loading => s.lock i ⟨c.offset, recordSize⟩ .read .loadLocked
  | .loaded =>
    if recordSize ≤ c.offset then some (s.unlock i ⟨c.offset - recordSize, recordSize⟩)
    else none
  | .saving => s.lock i ⟨c.offset, recordSize⟩ .write .saveLocked
  | .written => some (s.unlock i ⟨c.offset, recordSize⟩)
  | _ => none

/-- The next transfer between the file and the client's variables; `junk` is what `tmpRecord`
holds before the `read`. After its `write`, `saveRecord` seeks back to the record. -/
def stepTransfer (s : State I) (i : I) (junk : Record) : Option (State I) :=
  let c := s.session i
  match c.pc with
  | .printLocked => some (s.setSession i { c with pc := .printed, offset := s.file.length })
  | .loadLocked =>
    let bytes := s.file.readAt c.offset
    some (s.setSession i { c with
      pc := .loaded
      offset := c.offset + bytes.length
      record := c.record.fill 0 bytes })
  | .saveLocked =>
    let bytes := s.file.readAt c.offset
    let tmpRecord := junk.fill 0 bytes
    if tmpRecord.Same c.record then
      some { s.setSession i { c with
          pc := .writing false
          offset := c.offset + bytes.length } with
        log := .compared i c.currentRecord :: s.log }
    else
      some (s.setSession i { c with
        pc := .prompting tmpRecord
        offset := c.offset + bytes.length })
  | .writing prompted =>
    let offset := seek c.offset c.currentRecord
    some { s.setSession i { c with
        pc := .written
        offset := seek (offset + recordSize) c.currentRecord } with
      file := s.file.writeAt offset c.newRecord
      log := .wrote i c.currentRecord prompted (s.file.recordAt c.currentRecord) c.record ::
        s.log }
  | _ => none

/-- A command read at the menu. -/
def atMenu (s : State I) (i : I) (t : Session → State I) : Option (State I) :=
  if (s.session i).pc = .menu then some (t (s.session i)) else none

def next (s : State I) : Action I → Option (State I)
  | .start i record newRecord =>
    if (s.session i).pc = .closed then
      some (s.setSession i
        ⟨.menu, s.file.length, Int.bmod (s.file.length / recordSize) (2 ^ 32), 0, record,
          newRecord⟩)
    else none
  | .print i => s.atMenu i fun _ => s.goto i .printing
  | .get i n => s.atMenu i fun c =>
    if c.size ≤ n then s.setSession i { c with currentRecord := n }
    else s.setSession i
      { c with pc := .loading, currentRecord := n, offset := seek c.offset n }
  | .rewrite i name address semester => s.atMenu i fun c =>
    s.setSession i { c with newRecord := c.record.modifyRecord name address semester }
  | .save i => s.atMenu i fun c =>
    s.setSession i { c with pc := .saving, offset := seek c.offset c.currentRecord }
  | .quit i => s.atMenu i fun _ =>
    { s.goto i .closed with locks := Function.update s.locks i .empty }
  | .fcntl i => s.stepFcntl i
  | .fail i => if (s.session i).pc.calls then some (s.goto i .menu) else none
  | .transfer i junk => s.stepTransfer i junk
  | .answer i symbol =>
    match (s.session i).pc with
    | .prompting tmpRecord =>
      if symbol = 'n'.toUInt8 then
        some (s.setSession i { s.session i with
          pc := .menu, record := tmpRecord, newRecord := tmpRecord })
      else some (s.goto i (.writing true))
    | _ => none

/-- What each operation does and when it is enabled. -/
inductive Step (s : State I) (i : I) : Action I → State I → Prop
  | start (record newRecord : Record) (hpc : (s.session i).pc = .closed) :
    Step s i (.start i record newRecord) (s.setSession i ⟨.menu, s.file.length,
      Int.bmod (s.file.length / recordSize) (2 ^ 32), 0, record, newRecord⟩)
  | print (hpc : (s.session i).pc = .menu) : Step s i (.print i) (s.goto i .printing)
  | getTooBig (n : ℤ) (hpc : (s.session i).pc = .menu) (hbig : (s.session i).size ≤ n) :
    Step s i (.get i n) (s.setSession i { s.session i with currentRecord := n })
  | get (n : ℤ) (hpc : (s.session i).pc = .menu) (hlt : n < (s.session i).size) :
    Step s i (.get i n) (s.setSession i { s.session i with
      pc := .loading, currentRecord := n, offset := seek (s.session i).offset n })
  | rewrite (name address : Option (List UInt8)) (semester : Option UInt8)
      (hpc : (s.session i).pc = .menu) :
    Step s i (.rewrite i name address semester) (s.setSession i { s.session i with
      newRecord := (s.session i).record.modifyRecord name address semester })
  | save (hpc : (s.session i).pc = .menu) :
    Step s i (.save i) (s.setSession i { s.session i with
      pc := .saving, offset := seek (s.session i).offset (s.session i).currentRecord })
  | quit (hpc : (s.session i).pc = .menu) :
    Step s i (.quit i) { s.goto i .closed with locks := Function.update s.locks i .empty }
  | lockAll (hpc : (s.session i).pc = .printing) (hg : Grantable s.locks i ⟨0, 0⟩ .read) :
    Step s i (.fcntl i) { s.goto i .printLocked with locks := setLock s.locks i ⟨0, 0⟩ .read }
  | unlockAll (hpc : (s.session i).pc = .printed) : Step s i (.fcntl i) (s.unlock i ⟨0, 0⟩)
  | lockRead (hpc : (s.session i).pc = .loading)
      (hg : Grantable s.locks i ⟨(s.session i).offset, recordSize⟩ .read) :
    Step s i (.fcntl i) { s.goto i .loadLocked with
      locks := setLock s.locks i ⟨(s.session i).offset, recordSize⟩ .read }
  | unlockRead (hpc : (s.session i).pc = .loaded) (hle : recordSize ≤ (s.session i).offset) :
    Step s i (.fcntl i) (s.unlock i ⟨(s.session i).offset - recordSize, recordSize⟩)
  | lockWrite (hpc : (s.session i).pc = .saving)
      (hg : Grantable s.locks i ⟨(s.session i).offset, recordSize⟩ .write) :
    Step s i (.fcntl i) { s.goto i .saveLocked with
      locks := setLock s.locks i ⟨(s.session i).offset, recordSize⟩ .write }
  | unlockWrite (hpc : (s.session i).pc = .written) :
    Step s i (.fcntl i) (s.unlock i ⟨(s.session i).offset, recordSize⟩)
  | fail (hpc : (s.session i).pc.calls = true) : Step s i (.fail i) (s.goto i .menu)
  | readAll (junk : Record) (hpc : (s.session i).pc = .printLocked) :
    Step s i (.transfer i junk) (s.setSession i { s.session i with
      pc := .printed, offset := s.file.length })
  | load (junk : Record) (hpc : (s.session i).pc = .loadLocked) :
    Step s i (.transfer i junk) (s.setSession i { s.session i with
      pc := .loaded
      offset := (s.session i).offset + (s.file.readAt (s.session i).offset).length
      record := (s.session i).record.fill 0 (s.file.readAt (s.session i).offset) })
  | compareSame (junk : Record) (hpc : (s.session i).pc = .saveLocked)
      (hsame : (junk.fill 0 (s.file.readAt (s.session i).offset)).Same (s.session i).record) :
    Step s i (.transfer i junk) { s.setSession i { s.session i with
        pc := .writing false
        offset := (s.session i).offset + (s.file.readAt (s.session i).offset).length } with
      log := .compared i (s.session i).currentRecord :: s.log }
  | compareChanged (junk : Record) (hpc : (s.session i).pc = .saveLocked)
      (hdiff : ¬ (junk.fill 0 (s.file.readAt (s.session i).offset)).Same (s.session i).record) :
    Step s i (.transfer i junk) (s.setSession i { s.session i with
      pc := .prompting (junk.fill 0 (s.file.readAt (s.session i).offset))
      offset := (s.session i).offset + (s.file.readAt (s.session i).offset).length })
  | write (junk : Record) (prompted : Bool) (hpc : (s.session i).pc = .writing prompted) :
    Step s i (.transfer i junk) { s.setSession i { s.session i with
        pc := .written
        offset := seek (seek (s.session i).offset (s.session i).currentRecord + recordSize)
          (s.session i).currentRecord } with
      file := s.file.writeAt (seek (s.session i).offset (s.session i).currentRecord)
        (s.session i).newRecord
      log := .wrote i (s.session i).currentRecord prompted
        (s.file.recordAt (s.session i).currentRecord) (s.session i).record :: s.log }
  | answerNo (symbol : UInt8) (tmpRecord : Record)
      (hpc : (s.session i).pc = .prompting tmpRecord) (hno : symbol = 'n'.toUInt8) :
    Step s i (.answer i symbol) (s.setSession i { s.session i with
      pc := .menu, record := tmpRecord, newRecord := tmpRecord })
  | answerYes (symbol : UInt8) (tmpRecord : Record)
      (hpc : (s.session i).pc = .prompting tmpRecord) (hyes : symbol ≠ 'n'.toUInt8) :
    Step s i (.answer i symbol) (s.goto i (.writing true))

theorem lock_eq_some {s t : State I} {i : I} {r : ByteRange} {k : Lock} {pc : Pc}
    (h : s.lock i r k pc = some t) :
    Grantable s.locks i r k ∧ t = { s.goto i pc with locks := setLock s.locks i r k } := by
  unfold lock at h
  split at h
  · exact ⟨‹_›, (Option.some.inj h).symm⟩
  · cases h

omit [DecidableEq I] [Fintype I] in
theorem atMenu_eq_some {s t : State I} {i : I} {f : Session → State I}
    (h : s.atMenu i f = some t) : (s.session i).pc = .menu ∧ t = f (s.session i) := by
  unfold atMenu at h
  split at h
  · exact ⟨‹_›, (Option.some.inj h).symm⟩
  · cases h

theorem stepFcntl_step {s t : State I} {i : I} (h : s.stepFcntl i = some t) :
    Step s i (.fcntl i) t := by
  simp only [stepFcntl] at h
  split at h
  · obtain ⟨hg, rfl⟩ := lock_eq_some h
    exact .lockAll ‹_› hg
  · obtain rfl := Option.some.inj h
    exact .unlockAll ‹_›
  · obtain ⟨hg, rfl⟩ := lock_eq_some h
    exact .lockRead ‹_› hg
  · split at h
    · obtain rfl := Option.some.inj h
      exact .unlockRead ‹_› ‹_›
    · cases h
  · obtain ⟨hg, rfl⟩ := lock_eq_some h
    exact .lockWrite ‹_› hg
  · obtain rfl := Option.some.inj h
    exact .unlockWrite ‹_›
  · cases h

omit [Fintype I] in
theorem stepTransfer_step {s t : State I} {i : I} {junk : Record}
    (h : s.stepTransfer i junk = some t) : Step s i (.transfer i junk) t := by
  simp only [stepTransfer] at h
  split at h
  · obtain rfl := Option.some.inj h
    exact .readAll junk ‹_›
  · obtain rfl := Option.some.inj h
    exact .load junk ‹_›
  · split at h
    · obtain rfl := Option.some.inj h
      exact .compareSame junk ‹_› ‹_›
    · obtain rfl := Option.some.inj h
      exact .compareChanged junk ‹_› ‹_›
  · obtain rfl := Option.some.inj h
    exact .write junk _ ‹_›
  · cases h

/-- Every computed step is one operation of one client. -/
theorem next_step {s t : State I} {a : Action I} (h : s.next a = some t) :
    ∃ i, Step s i a t := by
  cases a with
  | start i record newRecord =>
    simp only [next] at h
    split at h
    · obtain rfl := Option.some.inj h
      exact ⟨i, .start record newRecord ‹_›⟩
    · cases h
  | print i =>
    simp only [next] at h
    obtain ⟨hpc, rfl⟩ := atMenu_eq_some h
    exact ⟨i, .print hpc⟩
  | get i n =>
    simp only [next] at h
    obtain ⟨hpc, rfl⟩ := atMenu_eq_some h
    refine ⟨i, ?_⟩
    split
    · exact .getTooBig n hpc ‹_›
    · exact .get n hpc (lt_of_not_ge ‹_›)
  | rewrite i name address semester =>
    simp only [next] at h
    obtain ⟨hpc, rfl⟩ := atMenu_eq_some h
    exact ⟨i, .rewrite name address semester hpc⟩
  | save i =>
    simp only [next] at h
    obtain ⟨hpc, rfl⟩ := atMenu_eq_some h
    exact ⟨i, .save hpc⟩
  | quit i =>
    simp only [next] at h
    obtain ⟨hpc, rfl⟩ := atMenu_eq_some h
    exact ⟨i, .quit hpc⟩
  | fcntl i => exact ⟨i, stepFcntl_step h⟩
  | fail i =>
    simp only [next] at h
    split at h
    · obtain rfl := Option.some.inj h
      exact ⟨i, .fail ‹_›⟩
    · cases h
  | transfer i junk => exact ⟨i, stepTransfer_step h⟩
  | answer i symbol =>
    simp only [next] at h
    split at h
    · split at h
      · obtain rfl := Option.some.inj h
        exact ⟨i, .answerNo symbol _ ‹_› ‹_›⟩
      · obtain rfl := Option.some.inj h
        exact ⟨i, .answerYes symbol _ ‹_› ‹_›⟩
    · cases h

section Frame

variable {s t : State I} {i j : I} {a : Action I}

omit [Fintype I] in
/-- A step of one client leaves the variables of all others. -/
theorem Step.session_ne (h : Step s i a t) (hj : j ≠ i) : t.session j = s.session j := by
  cases h <;> exact Function.update_of_ne hj _ _

omit [Fintype I] in
/-- A step of one client leaves the locks of all others. -/
theorem Step.locks_ne (h : Step s i a t) (hj : j ≠ i) : t.locks j = s.locks j := by
  cases h with
  | quit hpc => exact Function.update_of_ne hj _ _
  | lockAll hpc hg => exact get_setLock_ne hj _ _
  | unlockAll hpc => exact get_setLock_ne hj _ _
  | lockRead hpc hg => exact get_setLock_ne hj _ _
  | unlockRead hpc hle => exact get_setLock_ne hj _ _
  | lockWrite hpc hg => exact get_setLock_ne hj _ _
  | unlockWrite hpc => exact get_setLock_ne hj _ _
  | _ => rfl

omit [Fintype I] in
/-- `fcntl` keeps incompatible locks apart. -/
theorem Step.excluded (h : Step s i a t) (hs : Excluded s.locks) : Excluded t.locks := by
  cases h with
  | quit hpc => exact hs.close i
  | lockAll hpc hg => exact hs.lock hg
  | unlockAll hpc => exact hs.unlock i _
  | lockRead hpc hg => exact hs.lock hg
  | unlockRead hpc hle => exact hs.unlock i _
  | lockWrite hpc hg => exact hs.lock hg
  | unlockWrite hpc => exact hs.unlock i _
  | _ => exact hs

omit [Fintype I] in
/-- The file changes only in the `write` of `saveRecord`, and the log there and at a comparison
that finds no change. -/
theorem Step.shared (h : Step s i a t) :
    (t.file = s.file ∧ t.log = s.log) ∨
    (t.file = s.file ∧ t.log = .compared i (s.session i).currentRecord :: s.log) ∨
    ∃ prompted, (s.session i).pc = .writing prompted ∧
      t.file = s.file.writeAt (seek (s.session i).offset (s.session i).currentRecord)
        (s.session i).newRecord ∧
      t.log = .wrote i (s.session i).currentRecord prompted
        (s.file.recordAt (s.session i).currentRecord) (s.session i).record :: s.log := by
  cases h with
  | compareSame junk hpc hsame => exact .inr (.inl ⟨rfl, rfl⟩)
  | write junk prompted hpc => exact .inr (.inr ⟨prompted, hpc, rfl, rfl⟩)
  | _ => exact .inl ⟨rfl, rfl⟩

end Frame

end State

end OsispLabs.Lab7
