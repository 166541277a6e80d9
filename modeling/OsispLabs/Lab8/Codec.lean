import OsispLabs.Lab8.Exchange
import OsispLabs.Lib.CString

/-!
# The text of commands and replies

What one side builds with `strcat` the other takes apart with fixed offsets and `strlen`: the
argument of `echo` and `cd` on its way to the server, and `dirPath` on its way to the prompt.
-/
namespace OsispLabs.Lab8
open Lib

/-- The text of `get_timestamp`. -/
structure Timestamp where
  chars : List Char
  size : chars.length = 23

theorem stamped_length (text : List Char) (timestamp : Timestamp) :
    (stamped text timestamp.chars).length = text.length + stampLength := by
  rw [stamped, List.length_append, List.length_append, timestamp.size]
  rfl

/-- Taking a suffix off by its length leaves the text, whatever is cut off in front. -/
theorem take_drop_stamped (text : List Char) (timestamp : Timestamp) (k : ℕ) :
    ((stamped text timestamp.chars).drop k).take
      ((stamped text timestamp.chars).length - k - stampLength) = text.drop k := by
  have hlen : (stamped text timestamp.chars).length - k - stampLength = (text.drop k).length := by
    rw [stamped_length, List.length_drop]
    omega
  rw [hlen, stamped, List.append_assoc]
  rcases Nat.le_total k text.length with hle | hle
  · rw [List.drop_append_of_le_length hle, List.take_left]
  · rw [List.drop_eq_nil_of_le hle, List.length_nil, List.take_zero]

section Command

/-- What `fgets(command, 100, ...)` stores: a newline can only be its last character. -/
structure Line where
  chars : List Char
  nonempty : chars ≠ []
  size : chars.length ≤ 99
  newline : '\n' ∉ chars.dropLast

/-- The commands with an argument. -/
inductive Word where
  | echo
  | cd
  deriving DecidableEq, Repr

def Word.text : Word → String
  | .echo => "echo"
  | .cd => "cd"

def Word.command : Word → Command
  | .echo => .echo
  | .cd => .cd

/-- A line that begins with the command. -/
structure CommandLine (word : Word) extends Line where
  begins : starts word.text chars = true

/-- `sendCommandToServer`: the message, unless `command` is empty or overflows its 100 bytes. -/
def message (line : Line) (timestamp : Timestamp) : Option (List Char) :=
  let command := untilNul '\x00' line.chars
  if command = [] then none
  else
    let command := stamped command.dropLast timestamp.chars
    if command.length + 1 ≤ 100 then some command else none

/-- `strlen(command) - 5 - 26` or `strlen(command) - 3 - 26`, before it is a `size_t`. -/
def Word.argumentLength (word : Word) (command : List Char) : ℤ :=
  command.length - (word.text.length + 1) - stampLength

/-- The argument that the server extracts. -/
def Word.argument : Word → List Char → List Char
  | .echo, command => echoText command
  | .cd, command => Lab8.argument command

/-- The typed line without its newline. -/
def Line.content (line : Line) : List Char :=
  if line.chars.getLast? = some '\n' then line.chars.dropLast else line.chars

/-- The message fits, and the server takes the argument out of it. -/
def RoundTrips {word : Word} (line : CommandLine word) (timestamp : Timestamp) : Prop :=
  ∃ command, message line.toLine timestamp = some command ∧
    parseCommand command = word.command ∧
    0 ≤ word.argumentLength command ∧
    word.argument command = line.content.drop (word.text.length + 1)

/-- The lines that arrive unchanged. -/
structure Transmissible {word : Word} (line : CommandLine word) : Prop where
  terminated : line.chars.getLast? = some '\n'
  noNul : '\x00' ∉ line.chars
  short : line.chars.length ≤ 74
  long : word.text.length + 2 ≤ line.chars.length

variable {word : Word} {line : CommandLine word} {timestamp : Timestamp} {body : List Char}

theorem Word.argument_stamped (word : Word) (body : List Char) (timestamp : Timestamp) :
    word.argument (stamped body timestamp.chars) = body.drop (word.text.length + 1) := by
  cases word
  · exact take_drop_stamped body timestamp 5
  · exact take_drop_stamped body timestamp 3

theorem Word.argumentLength_stamped (word : Word) (body : List Char) (timestamp : Timestamp) :
    word.argumentLength (stamped body timestamp.chars) =
      (body.length : ℤ) - (word.text.length + 1) := by
  rw [Word.argumentLength, stamped_length]
  omega

theorem parseCommand_stamped (h : starts word.text body = true) :
    parseCommand (stamped body timestamp.chars) = word.command := by
  rw [starts, List.isPrefixOf_iff_prefix] at h
  obtain ⟨rest, rfl⟩ := h
  cases word <;> rfl

theorem message_eq_some_iff {command : List Char} {line : Line} :
    message line timestamp = some command ↔
      untilNul '\x00' line.chars ≠ [] ∧
        (untilNul '\x00' line.chars).dropLast.length + stampLength < 100 ∧
        command = stamped (untilNul '\x00' line.chars).dropLast timestamp.chars := by
  simp only [message, stamped_length]
  split_ifs with hempty hfits
  · simp [hempty]
  · have hshort : (untilNul '\x00' line.chars).dropLast.length + stampLength < 100 := by omega
    rw [Option.some_inj, and_iff_right hempty, and_iff_right hshort, eq_comm]
  · have hlong : ¬ (untilNul '\x00' line.chars).dropLast.length + stampLength < 100 := by omega
    simp only [hlong, false_and, and_false]

theorem Line.content_length (line : Line) :
    line.content.length =
      if line.chars.getLast? = some '\n' then line.chars.length - 1 else line.chars.length := by
  rw [Line.content]
  split_ifs
  · exact List.length_dropLast
  · rfl

theorem RoundTrips.transmissible (h : RoundTrips line timestamp) : Transmissible line := by
  obtain ⟨command, hsent, -, hnonneg, hargument⟩ := h
  obtain ⟨hempty, hfits, rfl⟩ := message_eq_some_iff.mp hsent
  rw [Word.argumentLength_stamped] at hnonneg
  rw [Word.argument_stamped] at hargument
  have hlen := congrArg List.length hargument
  have hpos : 0 < (untilNul '\x00' line.chars).length := List.length_pos_iff.mpr hempty
  have hle := (untilNul_isPrefix '\x00' line.chars).length_le
  simp only [List.length_drop, List.length_dropLast, Line.content_length] at hlen hnonneg hfits
  have hterminated : line.chars.getLast? = some '\n' := by
    by_contra hnot
    rw [if_neg hnot] at hlen
    omega
  rw [if_pos hterminated] at hlen
  have hall : untilNul '\x00' line.chars = line.chars :=
    (untilNul_isPrefix _ _).eq_of_length (by omega)
  rw [hall] at hnonneg hfits
  have hstamp : stampLength = 26 := rfl
  exact
    { terminated := hterminated
      noNul := untilNul_eq_self_iff.mp hall
      short := by omega
      long := by omega }

theorem Transmissible.roundTrips (h : Transmissible line) : RoundTrips line timestamp := by
  have hall := untilNul_eq_self_iff.mpr h.noNul
  have hlen : line.chars.dropLast.length = line.chars.length - 1 := List.length_dropLast
  have hshort := h.short
  have hlong := h.long
  have hstamp : stampLength = 26 := rfl
  have hbegins : starts word.text line.chars.dropLast = true := by
    rw [starts, List.isPrefixOf_iff_prefix]
    apply List.prefix_of_prefix_length_le (List.isPrefixOf_iff_prefix.mp line.begins)
      (List.dropLast_prefix _)
    rw [hlen, String.length_toList]
    omega
  refine ⟨stamped line.chars.dropLast timestamp.chars, ?_, ?_, ?_, ?_⟩
  · rw [message_eq_some_iff, hall]
    exact ⟨line.nonempty, by omega, rfl⟩
  · exact parseCommand_stamped hbegins
  · rw [Word.argumentLength_stamped, hlen]
    omega
  · rw [Word.argument_stamped, Line.content, if_pos h.terminated]

theorem roundTrips_iff_transmissible {word : Word} (line : CommandLine word)
    (timestamp : Timestamp) : RoundTrips line timestamp ↔ Transmissible line :=
  ⟨RoundTrips.transmissible, Transmissible.roundTrips⟩

def noon : Timestamp := ⟨"2024.05.31-12:00:00.000".toList, by decide⟩

/-- The last line of a file, without a newline. -/
def lastLine : CommandLine .echo :=
  ⟨⟨"echo abc".toList, by decide, by decide, by decide⟩, by decide⟩

/-- The server extracts `ab`. -/
theorem lastLine_not_roundTrips : ¬ RoundTrips lastLine noon := by
  rintro ⟨command, hsent, -, -, hargument⟩
  obtain ⟨-, -, rfl⟩ := message_eq_some_iff.mp hsent
  rw [Word.argument_stamped] at hargument
  exact absurd hargument (by decide)

end Command

section Prompt
open Session

variable {D : Type*} {fs : FileSystem D} {cwd : D} {c c' : Session D} {command : List Char}
  {timestamp : Timestamp}

/-- `changeDirectory` of the client for a reply: the prompt it stores in `path`, unless
`strlen(buffer) - 18 - 26` wraps. -/
def promptOf (buffer : Frame) : Option (List Char) :=
  if buffer.length < 18 + stampLength then none
  else some ((buffer.drop 18).take (buffer.length - 18 - stampLength) ++ "> ".toList)

/-- The server replies to the command, and the client's prompt shows the session's `dirPath`. -/
def ShowsDirPath (fs : FileSystem D) (cwd : D) (c : Session D) (command : List Char)
    (timestamp : Timestamp) : Prop :=
  ∃ c' reply, (c.changeDirectory fs cwd command).2 = some c' ∧
    newFrames timestamp.chars c c' = [reply] ∧
    promptOf reply = some (c'.dirPath ++ "> ".toList)

/-- Both replies to `cd` show the `dirPath` that the session has from then on. -/
theorem newFrames_changeDirectory (h : (c.changeDirectory fs cwd command).2 = some c') :
    newFrames timestamp.chars c c' =
      [stamped ("Current directory: ".toList ++ c'.dirPath) timestamp.chars] := by
  obtain ⟨-, temp, -, ⟨d, -, -, rfl⟩ | ⟨-, -, rfl⟩⟩ := changeDirectory_eq_some_iff.mp h
  · simp [newFrames, emit, Output.frame]
  · simp [newFrames, emit, Output.frame]

/-- The offset 18 keeps the blank in front of the path. -/
theorem promptOf_current (dirPath : List Char) (timestamp : Timestamp) :
    promptOf (stamped ("Current directory: ".toList ++ dirPath) timestamp.chars) =
      some (' ' :: dirPath ++ "> ".toList) := by
  have hlen : ¬ (stamped ("Current directory: ".toList ++ dirPath) timestamp.chars).length <
      18 + stampLength := by
    rw [stamped_length, List.length_append]
    have hpre : "Current directory: ".toList.length = 19 := rfl
    omega
  rw [promptOf, if_neg hlen, take_drop_stamped]
  rfl

theorem promptOf_reply {reply : Frame} (h : (c.changeDirectory fs cwd command).2 = some c')
    (hframes : newFrames timestamp.chars c c' = [reply]) :
    promptOf reply = some (' ' :: c'.dirPath ++ "> ".toList) := by
  rw [newFrames_changeDirectory h] at hframes
  obtain rfl : _ = reply := List.singleton_inj.mp hframes
  exact promptOf_current c'.dirPath timestamp

/-- Whatever comes of the command, the prompt is not the session's `dirPath`. -/
theorem not_showsDirPath (fs : FileSystem D) (cwd : D) (c : Session D) (command : List Char)
    (timestamp : Timestamp) : ¬ ShowsDirPath fs cwd c command timestamp := by
  rintro ⟨c', reply, hc, hframes, hprompt⟩
  rw [promptOf_reply hc hframes, Option.some_inj] at hprompt
  have hlen := congrArg List.length hprompt
  simp only [List.cons_append, List.length_cons, List.length_append] at hlen
  omega

/-- A file system with one directory. -/
def rootOnly : FileSystem Unit where
  root := ()
  enter _ _ := some ()
  entries _ := some []
  kind _ _ := none

/-- The server is in `/` and says so, but the prompt is ` /> `. -/
theorem cdRoot_not_showsDirPath :
    (∃ c', ((Session.start ['/']).changeDirectory rootOnly ()
      (stamped "cd .".toList noon.chars)).2 = some c' ∧ c'.dirPath = ['/']) ∧
    ¬ ShowsDirPath rootOnly () (.start ['/']) (stamped "cd .".toList noon.chars) noon := by
  constructor
  · exact ⟨_, rfl, rfl⟩
  · rintro ⟨c', reply, hc, hframes, hprompt⟩
    rw [promptOf_reply hc hframes] at hprompt
    simp at hprompt

end Prompt

end OsispLabs.Lab8
