import OsispLabs.Lib.Traversal
import Mathlib.Data.Int.Notation

/-!
# The directory walk

`dirwalkStdout` knows an entry by the text of its path, which it builds in a buffer of 256 bytes.
The file system answers for texts; below a directory it holds a finite tree, with the path of an
entry as its true name.
-/
namespace OsispLabs.Lab1
open Lib

/-- `st_mode` as far as the `switch` tells it apart. -/
inductive Kind where
  | directory
  | link
  | regular
  | other
  deriving DecidableEq, Repr

/-- The options, in the order of the arguments. -/
structure Options where
  l : Bool
  d : Bool
  f : Bool
  s : Bool
  deriving DecidableEq, Repr

/-- What the system calls say about a path, and the order of `strcoll`. -/
structure FileSystem where
  lstat : List Char → Option Kind
  scandir : List Char → Option (List (List Char))
  strcoll : List Char → List Char → ℤ

/-- `.` and `..` -/
def isDots (name : List Char) : Bool := name = ['.'] ∨ name = ['.', '.']

/-- `snprintf(fullpath, 256, "%s/%s", path, name)` -/
def fullpath (path name : List Char) : List Char := (path ++ '/' :: name).take 255

/-- The `printf` of an entry. -/
def line (kind : Kind) (path : List Char) : List Char :=
  match kind with
  | .directory => "\n DIR: ".toList ++ path
  | .link => "\nLNK: ".toList ++ path
  | .regular => "\nFILE: ".toList ++ path
  | .other => []

/-- A type is printed if its option is set. -/
def Options.selects (o : Options) : Kind → Bool
  | .directory => o.d
  | .link => o.l
  | .regular => o.f
  | .other => false

namespace FileSystem

/-- `namelist`, sorted if the option says so. -/
def namelist (fs : FileSystem) (s : Bool) (path : List Char) : List (List Char) :=
  match fs.scandir path with
  | none => []
  | some names => if s then names.mergeSort fun a b => fs.strcoll a b ≤ 0 else names

/-- One turn of the loop: what it prints, and the path of the recursive call. -/
def visit (fs : FileSystem) (o : Options) (path name : List Char) :
    List (List Char) × Option (List Char) :=
  if isDots name then ([], none)
  else
    match fs.lstat (fullpath path name) with
    | none => ([], none)
    | some .directory =>
      (if o.d then [line .directory (fullpath path name)] else [], some (fullpath path name))
    | some .link => (if o.l then [line .link (fullpath path name)] else [], none)
    | some .regular => (if o.f then [line .regular (fullpath path name)] else [], none)
    | some .other => ([], none)

/-- The turns of the loop over `namelist`. -/
def turns (fs : FileSystem) (o : Options) (path : List Char) :
    List (List (List Char) × Option (List Char)) :=
  (fs.namelist o.s path).map (fs.visit o path)

def dirwalkStdout (fs : FileSystem) (o : Options) (fuel : ℕ) (path : List Char) :
    Option (List (List Char)) :=
  traverse (fs.turns o) fuel path

end FileSystem

/-- The name of an entry. -/
structure Name where
  chars : List Char
  nonempty : chars ≠ []
  noSlash : '/' ∉ chars
  noDots : isDots chars = false
  size : chars.length ≤ 255

/-- The entries of a directory, in the order of `scandir`: a directory with its own entries, or
another type. -/
inductive Entries where
  | nil
  | leaf (name : Name) (kind : { kind : Kind // kind ≠ .directory }) (rest : Entries)
  | directory (name : Name) (entries rest : Entries)

/-- The path of an entry. -/
def Name.under (path : List Char) (name : Name) : List Char := path ++ '/' :: name.chars

namespace Entries

def names : Entries → List (List Char)
  | nil => []
  | leaf name _ rest | directory name _ rest => name.chars :: rest.names

/-- All entries below a path, with their types and true paths. -/
def paths (path : List Char) : Entries → List (Kind × List Char)
  | nil => []
  | leaf name kind rest => (kind.1, name.under path) :: rest.paths path
  | directory name entries rest =>
    (.directory, name.under path) :: (entries.paths (name.under path) ++ rest.paths path)

/-- The lines for all entries below a path whose type is selected. -/
def lines (o : Options) (path : List Char) (entries : Entries) : List (List Char) :=
  ((entries.paths path).filter fun e => o.selects e.1).map fun e => line e.1 e.2

end Entries

/-- The system calls refuse a longer path. -/
abbrev pathMax : ℕ := 4096

namespace FileSystem

/-- The directory opens, with these entries and possibly `.` and `..`. -/
def Opens (fs : FileSystem) (path : List Char) (entries : Entries) : Prop :=
  ∃ names, fs.scandir path = some names ∧ names.filter (fun name => !isDots name) = entries.names

/-- The types and the entries of everything below a path, as far as a path can tell. -/
def Contains (fs : FileSystem) (path : List Char) : Entries → Prop
  | .nil => True
  | .leaf name kind rest =>
    ((name.under path).length < pathMax → fs.lstat (name.under path) = some kind.1) ∧
      fs.Contains path rest
  | .directory name entries rest =>
    ((name.under path).length < pathMax →
      fs.lstat (name.under path) = some .directory ∧ fs.Opens (name.under path) entries) ∧
      fs.Contains (name.under path) entries ∧ fs.Contains path rest

/-- A readable directory with a finite tree below it. -/
structure Holds (fs : FileSystem) (path : List Char) (entries : Entries) : Prop where
  opens : fs.Opens path entries
  contains : fs.Contains path entries

/-- `dirwalkStdout` ends and prints one line for each entry whose type is selected, and no other. -/
def Complete (fs : FileSystem) (o : Options) (path : List Char) (entries : Entries) : Prop :=
  ∃ fuel out, fs.dirwalkStdout o fuel path = some out ∧ out.Perm (entries.lines o path)

/-- A text for which nothing is printed and nothing walked through. -/
def Silent (fs : FileSystem) (o : Options) (path : List Char) : Prop :=
  match fs.lstat path with
  | none | some .other => True
  | some .link => o.l = false
  | some .regular => o.f = false
  | some .directory => o.d = false ∧ ∀ name ∈ (fs.scandir path).getD [], isDots name = true

/-- The path fits into the buffer, or the entry has no line and what is left of its path is the
name of nothing that has one. -/
def Reachable (fs : FileSystem) (o : Options) (e : Kind × List Char) : Prop :=
  e.2.length ≤ 255 ∨ (o.selects e.1 = false ∧ fs.Silent o (e.2.take 255))

end FileSystem

end OsispLabs.Lab1
