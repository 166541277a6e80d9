import Mathlib.Data.List.Basic

/-!
# Commands and replies

The texts that client and server exchange, as lists of characters without a terminator.
-/
namespace OsispLabs.Lab8

/-- `enum Command`, with the value `-1` as `unknown`. -/
inductive Command where
  | quit
  | info
  | echo
  | cd
  | list
  | unknown
  deriving DecidableEq, Repr

/-- `strncmp(text, word, strlen(word)) == 0` -/
def starts (word : String) (text : List Char) : Bool := word.toList.isPrefixOf text

def parseCommand (command : List Char) : Command :=
  if starts "quit" command then .quit
  else if starts "info" command then .info
  else if starts "echo" command then .echo
  else if starts "cd" command then .cd
  else if starts "list" command then .list
  else .unknown

/-- The suffix of `sendMessage` and `sendCommandToServer`: a separator and the timestamp. -/
def stamped (text timestamp : List Char) : List Char := text ++ " - ".toList ++ timestamp

/-- `strlen` of the separator and a timestamp. -/
abbrev stampLength : ℕ := 26

/-- What `lstat` and `readlink` tell about a directory entry. -/
inductive EntryKind where
  | directory
  | link (target : Option (List Char))
  | other
  deriving DecidableEq, Repr

/-- The line of `sendDirectoryListing` for an entry; an unreadable link is skipped. -/
def entryText (name : List Char) : EntryKind → Option (List Char)
  | .directory => some ('/' :: name ++ ['/'])
  | .link (some target) => some (name ++ " --> ".toList ++ target)
  | .link none => none
  | .other => some name

end OsispLabs.Lab8
