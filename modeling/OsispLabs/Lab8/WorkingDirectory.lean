import OsispLabs.Lab8.Command
import OsispLabs.Lib.Execution
import Mathlib.Logic.Function.Basic

/-!
# Directories of the server

Sessions of `server.c` in one process: `dirPath` is the session's own, but `chdir` moves the one
working directory that every relative path is resolved against. The file system is fixed, and a
session stops after every system call that resolves a path.
-/
namespace OsispLabs.Lab8
open Lib

/-- A fixed file system: where a path component leads from a directory (`.`, `..` and links to
directories included), the entries that `opendir` and `readdir` give, and what `lstat` and
`readlink` say about an entry. -/
structure FileSystem (D : Type*) where
  root : D
  enter : D → List Char → Option D
  entries : D → Option (List (List Char))
  kind : D → List Char → Option EntryKind

variable {D : Type*}

namespace FileSystem

/-- The components of a path; repeated and trailing slashes count for nothing. -/
def components (path : List Char) : List (List Char) := (path.splitOn '/').filter (· ≠ [])

def walk (fs : FileSystem D) (d : D) (names : List (List Char)) : Option D :=
  names.foldlM fs.enter d

/-- The directory of a path: absolute paths start at the root, relative ones at `cwd`, and the
empty path does not exist. -/
def resolve (fs : FileSystem D) (cwd : D) : List Char → Option D
  | [] => none
  | '/' :: path => fs.walk fs.root (components path)
  | path => fs.walk cwd (components path)

/-- `lstat(dirPath/name)` with the target of a link. -/
def lstat (fs : FileSystem D) (cwd : D) (dirPath name : List Char) : Option EntryKind :=
  (fs.resolve cwd (dirPath ++ ['/'])).bind fun d => fs.kind d name

end FileSystem

/-- The argument of `cd` in a message: the text between `cd ` and the timestamp. -/
def argument (command : List Char) : List Char :=
  (command.drop 3).take (command.length - 3 - stampLength)

/-- `dirPath` cut at its last slash, or unchanged if it has none. -/
def parentPath (dirPath : List Char) : List Char :=
  if '/' ∈ dirPath then (dirPath.reverse.dropWhile (· ≠ '/')).tail.reverse else dirPath

/-- `tempPath` of `changeDirectory`, unless the argument is an absolute path. -/
def tempPath (dirPath newDir : List Char) : Option (List Char) :=
  if starts "/" newDir then none
  else if starts ".." newDir then some (parentPath dirPath)
  else if starts "." newDir then some dirPath
  else some (dirPath ++ '/' :: newDir)

/-- What becomes of a `cd` message: it has no argument and its length wraps, the path is absolute,
`chdir` moves the process, or `chdir` fails. -/
inductive Change (D : Type*) where
  | wraps
  | absolute
  | moved (d : D) (temp : List Char)
  | failed

/-- The body of `changeDirectory` up to its reply. -/
def change (fs : FileSystem D) (cwd : D) (dirPath command : List Char) : Change D :=
  if command.length < 3 + stampLength then .wraps
  else
    match tempPath dirPath (argument command) with
    | none => .absolute
    | some temp =>
      match fs.resolve cwd temp with
      | some d => .moved d temp
      | none => .failed

theorem of_change_moved {fs : FileSystem D} {cwd d : D} {dirPath command temp : List Char}
    (h : change fs cwd dirPath command = .moved d temp) :
    tempPath dirPath (argument command) = some temp ∧ fs.resolve cwd temp = some d := by
  unfold change at h
  split at h
  · cases h
  · cases ht : tempPath dirPath (argument command) with
    | none =>
      rw [ht] at h
      cases h
    | some temp' =>
      cases hd : fs.resolve cwd temp' with
      | none =>
        simp only [ht, hd] at h
        cases h
      | some d' =>
        simp only [ht, hd] at h
        cases h
        exact ⟨rfl, hd⟩

/-- The reply to `cd` fits its buffer of 100 bytes. -/
def Fits (dirPath : List Char) : Prop :=
  "Current directory: ".length + dirPath.length + stampLength < 100

instance (dirPath : List Char) : Decidable (Fits dirPath) := inferInstanceAs (Decidable (_ < _))

/-- What a session shows its client: the reply to `cd`, with the directory it moved to if it
moved, the directory a listing enumerates, its lines and its end. -/
inductive Output (D : Type*) where
  | current (moved : Option D) (dirPath : List Char)
  | enumerates (d : D)
  | line (text : List Char)
  | done
  deriving DecidableEq

/-- Where a session stands: at its next command, in the `readdir` loop with the entries to come,
or between the `lstat` and the `readlink` of an entry. -/
inductive Task where
  | command
  | listing (entries : List (List Char))
  | linking (name : List Char) (entries : List (List Char))
  deriving DecidableEq

/-- `dirPath` of `handleConnection`, and the session's outputs in order. -/
structure Session (D : Type*) where
  dirPath : List Char
  task : Task
  outputs : List (Output D)
  deriving DecidableEq

/-- What a session does next: serve a `cd` or `list` message, or go on with a listing. -/
inductive Operation where
  | cd (command : List Char)
  | list
  | proceed
  deriving DecidableEq

namespace Session

def start (path : List Char) : Session D := ⟨path, .command, []⟩

def emit (c : Session D) (o : Output D) (task : Task) : Session D :=
  { c with outputs := c.outputs ++ [o], task := task }

/-- `changeDirectory`: the directory that `chdir` moves the process to, and the session, or
`none` where the process ends. It ends where the length wraps or the path is absolute, since
`sendMessage` appends to a string literal, and for a reply that is longer than its buffer. -/
def changeDirectory (fs : FileSystem D) (cwd : D) (c : Session D) (command : List Char) :
    Option D × Option (Session D) :=
  match change fs cwd c.dirPath command with
  | .wraps | .absolute => (none, none)
  | .moved d temp => (some d,
      if Fits temp then some ({ c with dirPath := temp }.emit (.current (some d) temp) .command)
      else none)
  | .failed => (none,
      if Fits c.dirPath then some (c.emit (.current none c.dirPath) .command) else none)

/-- `changeDirectory` replies where the path has moved, or where `chdir` failed. -/
theorem changeDirectory_eq_some_iff {fs : FileSystem D} {cwd : D} {c c' : Session D}
    {command : List Char} :
    (c.changeDirectory fs cwd command).2 = some c' ↔
      3 + stampLength ≤ command.length ∧ ∃ temp, tempPath c.dirPath (argument command) = some temp ∧
        ((∃ d, fs.resolve cwd temp = some d ∧ Fits temp ∧
            c' = { c with dirPath := temp }.emit (.current (some d) temp) .command) ∨
          (fs.resolve cwd temp = none ∧ Fits c.dirPath ∧
            c' = c.emit (.current none c.dirPath) .command)) := by
  rw [changeDirectory, change]
  by_cases hlen : command.length < 3 + stampLength
  · simp [hlen, Nat.not_le_of_lt hlen]
  · rw [if_neg hlen, and_iff_right (Nat.le_of_not_lt hlen)]
    cases tempPath c.dirPath (argument command) with
    | none => simp
    | some temp =>
      cases hd : fs.resolve cwd temp with
      | none => simp [hd, eq_comm]
      | some d => simp [hd, eq_comm]

/-- `opendir` of `sendDirectoryListing`; where it fails, `sendMessage` appends to a literal. -/
def openDirectory (fs : FileSystem D) (cwd : D) (c : Session D) : Option (Session D) :=
  (fs.resolve cwd c.dirPath).bind fun d =>
    (fs.entries d).map fun names => c.emit (.enumerates d) (.listing names)

/-- Send the line of an entry, if it has one. -/
def sendEntry (c : Session D) (name : List Char) (kind : EntryKind) (names : List (List Char)) :
    Session D :=
  match entryText name kind with
  | some text => c.emit (.line text) (.listing names)
  | none => { c with task := .listing names }

/-- One turn of the `readdir` loop, up to the `readlink` of a link. -/
def proceed (fs : FileSystem D) (cwd : D) (c : Session D) : Option (Session D) :=
  match c.task with
  | .command => none
  | .listing [] => some (c.emit .done .command)
  | .listing (name :: names) =>
    match fs.lstat cwd c.dirPath name with
    | none => some { c with task := .listing names }
    | some (.link _) => some { c with task := .linking name names }
    | some kind => some (c.sendEntry name kind names)
  | .linking name names =>
    match fs.lstat cwd c.dirPath name with
    | some (.link target) => some (c.sendEntry name (.link target) names)
    | _ => some { c with task := .listing names }

theorem sendEntry_dirPath (c : Session D) (name : List Char) (kind : EntryKind)
    (names : List (List Char)) : (c.sendEntry name kind names).dirPath = c.dirPath := by
  unfold sendEntry
  split <;> rfl

theorem proceed_dirPath {fs : FileSystem D} {cwd : D} {c c' : Session D}
    (h : c.proceed fs cwd = some c') : c'.dirPath = c.dirPath := by
  unfold proceed at h
  split at h
  · cases h
  · cases h
    rfl
  · split at h
    all_goals cases h
    · rfl
    · rfl
    · exact sendEntry_dirPath _ _ _ _
  · split at h
    all_goals cases h
    · exact sendEntry_dirPath _ _ _ _
    · rfl

/-- An operation in working directory `cwd`, if it is the session's turn. -/
def operate (fs : FileSystem D) (cwd : D) (c : Session D) :
    Operation → Option (Option D × Option (Session D))
  | .cd command => if c.task = .command then some (c.changeDirectory fs cwd command) else none
  | .list => if c.task = .command then some (none, c.openDirectory fs cwd) else none
  | .proceed => (c.proceed fs cwd).map fun c => (none, some c)

end Session

/-- The process: its working directory, its sessions, and whether it is still running. A session
in which the process ended is `none`. -/
structure Server (I D : Type*) where
  cwd : D
  session : I → Option (Session D)
  running : Bool

namespace Server

variable {I : Type*} [DecidableEq I]

/-- A server started in `cwd` with the given path, with every connection accepted. -/
def start (cwd : D) (path : List Char) : Server I D := ⟨cwd, fun _ => some (.start path), true⟩

/-- An operation of session `i`, in the working directory of the moment. -/
def next (fs : FileSystem D) (s : Server I D) (a : I × Operation) : Option (Server I D) :=
  if s.running then
    (s.session a.1).bind fun c =>
      (c.operate fs s.cwd a.2).map fun r =>
        { cwd := r.1.getD s.cwd
          session := Function.update s.session a.1 r.2
          running := r.2.isSome }
  else none

end Server

end OsispLabs.Lab8
