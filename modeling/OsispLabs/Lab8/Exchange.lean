import OsispLabs.Lab8.WorkingDirectory

/-!
# Client and server

One client of `client.c` and its session of `server.c` on a connection where every read returns
the bytes of one send. Frames are texts; besides the two processes, the state records the frames
that the server sent for each command and those that the client took for it. Other sessions enter
through the working directory of the moment, which every server step is given.
-/
namespace OsispLabs.Lab8
open Lib

/-- A text between two sends. -/
abbrev Frame := List Char

/-- Where the client goes on after a reply: to its prompt, out of its loop, or to the next line
of a file. -/
inductive After where
  | prompt
  | stop
  | file (lines : List (List Char))
  deriving DecidableEq

/-- Where the client stands: at the greeting, before its first `cd`, at its prompt, in
`sendFromFile`, at the `read` of one reply, in the loop of `getListDirectory`, or ended. -/
inductive Mode where
  | greeting
  | connecting
  | prompt
  | file (lines : List (List Char))
  | reply (after : After)
  | listing
  | stopped
  deriving DecidableEq

/-- The client is at a `read`. -/
def Mode.reads : Mode → Bool
  | .greeting | .reply _ | .listing => true
  | .connecting | .prompt | .file _ | .stopped => false

def After.mode : After → Mode
  | .prompt => .prompt
  | .stop => .stopped
  | .file lines => .file lines

/-- The server's session (`none` when it has ended), the frames it sent for each command, the
messages and frames under way, and the client with the frames it took. -/
structure Exchange (D : Type*) where
  session : Option (Session D)
  greeted : Bool
  answers : List (List Frame)
  toServer : List (List Char)
  toClient : List Frame
  mode : Mode
  got : List Frame
  shown : List (List Frame)

/-- A step of either side, with what it learns from outside: the contents of the info file, the
bytes an uninitialised buffer holds, the working directory, the time, the line that is typed and
the lines of the file it names. -/
inductive Action (D : Type*) where
  | greet (info : Option (List Char)) (timestamp : List Char)
  | serve (cwd : D) (info : Option (List Char)) (junk timestamp : List Char)
  | proceed (cwd : D)
  | connect (timestamp : List Char)
  | typed (line : List Char) (lines : Option (List (List Char))) (timestamp : List Char)
  | fileLine (timestamp : List Char)
  | read
  | hangUp
  deriving DecidableEq

variable {D : Type*}

/-- What is sent for an output; opening a directory sends nothing. -/
def Output.frame (timestamp : List Char) : Output D → Option Frame
  | .current _ dirPath => some (stamped ("Current directory: ".toList ++ dirPath) timestamp)
  | .enumerates _ => none
  | .line text => some text
  | .done => some "done".toList

/-- The frames of the outputs that `c'` has beyond those of `c`. -/
def newFrames (timestamp : List Char) (c c' : Session D) : List Frame :=
  (c'.outputs.drop c.outputs.length).filterMap (Output.frame timestamp)

/-- The argument of `echo`: the text between `echo ` and the timestamp. -/
def echoText (command : List Char) : List Char :=
  (command.drop 5).take (command.length - 5 - stampLength)

namespace Exchange

/-- An accepted connection. -/
def start (path : List Char) : Exchange D :=
  ⟨some (.start path), false, [], [], [], .greeting, [], []⟩

/-- The server starts a reply with these frames and goes on as `c`. -/
def answer (s : Exchange D) (frames : List Frame) (c : Option (Session D)) : Exchange D :=
  { s with
    session := c
    answers := s.answers ++ [frames]
    toClient := s.toClient ++ frames }

/-- The server adds frames to the reply it is sending. -/
def extend (s : Exchange D) (frames : List Frame) (c : Session D) : Exchange D :=
  { s with
    session := some c
    answers := s.answers.dropLast ++ [s.answers.getLastD [] ++ frames]
    toClient := s.toClient ++ frames }

/-- `sendMessage`: one frame, or the end of the process where the text and the timestamp do not
fit the buffer of 100 bytes. -/
def sendMessage (text timestamp : List Char) (c : Option (Session D)) :
    List Frame × Option (Session D) :=
  if text.length + stampLength < 100 then ([stamped text timestamp], c) else ([], none)

/-- `sendInfoAboutServer`; where the file cannot be opened, `sendMessage` appends to a literal. -/
def sendInfoAboutServer (info : Option (List Char)) (timestamp : List Char) (c : Session D) :
    List Frame × Option (Session D) :=
  match info with
  | some text => sendMessage text timestamp (some c)
  | none => ([], none)

/-- The reply of `waitConnection` to a message, and the session after it. The process ends where
the text of `echo` is too short. -/
def waitConnection (fs : FileSystem D) (cwd : D) (info : Option (List Char))
    (junk timestamp : List Char) (c : Session D) (command : List Char) :
    List Frame × Option (Session D) :=
  match parseCommand command with
  | .info => sendInfoAboutServer info timestamp c
  | .quit => sendMessage "BYE".toList timestamp none
  | .echo =>
    if command.length < 5 + stampLength then ([], none)
    else sendMessage (echoText command ++ junk) timestamp (some c)
  | .cd =>
    match (c.changeDirectory fs cwd command).2 with
    | some c' => (newFrames timestamp c c', some c')
    | none => ([], none)
  | .list =>
    match c.openDirectory fs cwd with
    | some c' => (newFrames timestamp c c', some c')
    | none => ([], none)
  | .unknown => sendMessage "Unknown command".toList timestamp (some c)

/-- `sendCommandToServer`: the last character gives way to the timestamp, and the message has to
fit the buffer of 100 bytes. -/
def sendCommandToServer (s : Exchange D) (line timestamp : List Char) (mode : Mode) :
    Exchange D :=
  if (stamped line.dropLast timestamp).length < 100 then
    { s with toServer := s.toServer ++ [stamped line.dropLast timestamp], mode := mode }
  else { s with mode := .stopped }

/-- The command loop of the client for a line that was typed. -/
def typed (s : Exchange D) (line : List Char) (lines : Option (List (List Char)))
    (timestamp : List Char) : Exchange D :=
  if starts "@" line then
    match lines with
    | some lines => { s with mode := .file lines }
    | none => s
  else if starts "list" line then s.sendCommandToServer line timestamp .listing
  else if starts "quit" line then s.sendCommandToServer line timestamp (.reply .stop)
  else s.sendCommandToServer line timestamp (.reply .prompt)

/-- The client has the whole reply to its command. -/
def finish (s : Exchange D) (mode : Mode) : Exchange D :=
  { s with mode := mode, got := [], shown := s.shown ++ [s.got] }

/-- A `read` of the client that returns a frame. -/
def read (s : Exchange D) : Option (Exchange D) :=
  match s.toClient with
  | [] => none
  | f :: frames =>
    let s := { s with toClient := frames, got := s.got ++ [f] }
    match s.mode with
    | .greeting => some (s.finish .connecting)
    | .reply after => some (s.finish after.mode)
    | .listing => some (if starts "done" f then s.finish .prompt else s)
    | .connecting | .prompt | .file _ | .stopped => none

def next (fs : FileSystem D) (s : Exchange D) : Action D → Option (Exchange D)
  | .greet info timestamp =>
    s.session.bind fun c =>
      if s.greeted then none
      else
        let r := sendInfoAboutServer info timestamp c
        some { s.answer r.1 r.2 with greeted := true }
  | .serve cwd info junk timestamp =>
    s.session.bind fun c =>
      if s.greeted = true ∧ c.task = .command then
        match s.toServer with
        | [] => none
        | command :: rest =>
          let r := waitConnection fs cwd info junk timestamp c command
          some (answer { s with toServer := rest } r.1 r.2)
      else none
  | .proceed cwd =>
    s.session.bind fun c => (c.proceed fs cwd).map fun c' => s.extend (newFrames [] c c') c'
  | .connect timestamp =>
    if s.mode = .connecting then
      some (s.sendCommandToServer "cd .".toList timestamp (.reply .prompt))
    else none
  | .typed line lines timestamp =>
    if s.mode = .prompt ∧ line ≠ [] then some (s.typed line lines timestamp) else none
  | .fileLine timestamp =>
    match s.mode with
    | .file [] => some { s with mode := .prompt }
    | .file (line :: lines) =>
      some (s.sendCommandToServer line timestamp (.reply (.file lines)))
    | _ => none
  | .read => s.read
  | .hangUp =>
    if s.session.isNone ∧ s.toClient = [] ∧ s.mode.reads then some { s with mode := .stopped }
    else none

end Exchange

end OsispLabs.Lab8
