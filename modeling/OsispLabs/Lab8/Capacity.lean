import OsispLabs.Lab8.Codec

/-!
# Room for the replies

The texts of one session and the storage they are built in. `sendMessage` appends 26 characters and
the terminator to whatever it is given: a buffer of 100 bytes, or a string literal. Where a length
wraps, the text has no bound at all.
-/
namespace OsispLabs.Lab8
open Lib

/-- What a reply is built in. -/
inductive Reply where
  | buffer (text : List Char)
  | literal (text : String)
  | overrun
  deriving DecidableEq

/-- The text, the timestamp and the terminator fit. -/
def Reply.Fits : Reply → Prop
  | .buffer text => text.length + stampLength + 1 ≤ 100
  | .literal _ | .overrun => False

instance : (r : Reply) → Decidable r.Fits
  | .buffer _ => inferInstanceAs (Decidable (_ ≤ _))
  | .literal _ | .overrun => isFalse id

/-- What `open` and `read` make of the info file. -/
inductive InfoFile where
  | missing
  | unreadable
  | content (chars : List Char)
  deriving DecidableEq

/-- The characters of the info file that arrive in `buffer[100]`, as a string. -/
def infoText (chars : List Char) : List Char := untilNul '\x00' (chars.take 99)

/-- A failing `read` returns -1, so the terminator is written in front of the buffer. -/
def infoReply : InfoFile → Reply
  | .missing => .literal "Error open info file"
  | .unreadable => .overrun
  | .content chars => .buffer (infoText chars)

/-- A message of the client. -/
structure Request where
  chars : List Char
  size : chars.length ≤ 99
  deriving DecidableEq

/-- The session as far as its texts go: whether it has served a command (after which `echoBuf` is
cleared), and its replies. -/
structure Dialogue where
  greeted : Bool
  connected : Bool
  dirPath : List Char
  served : Bool
  replies : List Reply
  deriving DecidableEq

/-- The greeting, or a message with the working directory of the moment, the info file and what
follows the copied characters in an `echoBuf` that was never written. -/
inductive Event (D : Type*) where
  | greet (info : InfoFile)
  | serve (message : Request) (cwd : D) (info : InfoFile) (junk : List Char)

variable {D : Type*}

namespace Dialogue

def start (path : List Char) : Dialogue := ⟨false, true, path, false, []⟩

def reply (s : Dialogue) (r : Reply) : Dialogue := { s with replies := s.replies ++ [r] }

def current (dirPath : List Char) : Reply := .buffer ("Current directory: ".toList ++ dirPath)

/-- `changeDirectory`: the new `dirPath` and the reply. -/
def changeDirectory (fs : FileSystem D) (cwd : D) (dirPath command : List Char) :
    List Char × Reply :=
  match change fs cwd dirPath command with
  | .wraps => (dirPath, .overrun)
  | .absolute => (dirPath, .literal "Error: Absolute path not allowed")
  | .moved _ temp => (temp, current temp)
  | .failed => (dirPath, current dirPath)

/-- `sendDirectoryListing`, as far as it calls `sendMessage`. -/
def listReplies (fs : FileSystem D) (cwd : D) (dirPath : List Char) : List Reply :=
  match (fs.resolve cwd dirPath).bind fs.entries with
  | some _ => []
  | none => [.literal "Error opening directory"]

/-- The reply to `echo`; only the first command finds `echoBuf` uninitialised. -/
def echoReply (served : Bool) (junk command : List Char) : Reply :=
  if command.length < 5 + stampLength then .overrun
  else .buffer (echoText command ++ if served then [] else junk)

/-- The `switch` of `waitConnection`. -/
def serve (fs : FileSystem D) (cwd : D) (info : InfoFile) (junk : List Char) (s : Dialogue)
    (command : List Char) : Dialogue :=
  match parseCommand command with
  | .info => s.reply (infoReply info)
  | .quit => { s.reply (.buffer "BYE".toList) with connected := false }
  | .echo => s.reply (echoReply s.served junk command)
  | .cd =>
    let r := changeDirectory fs cwd s.dirPath command
    { s.reply r.2 with dirPath := r.1 }
  | .list => { s with replies := s.replies ++ listReplies fs cwd s.dirPath }
  | .unknown => s.reply (.buffer "Unknown command".toList)

def next (fs : FileSystem D) (s : Dialogue) : Event D → Option Dialogue
  | .greet info =>
    if s.greeted = false then some { s.reply (infoReply info) with greeted := true } else none
  | .serve message cwd info junk =>
    if s.greeted = true ∧ s.connected = true then
      some { serve fs cwd info junk s message.chars with served := true }
    else none

/-- `dirPath` and all replies fit their buffers. -/
def Fitting (s : Dialogue) : Prop := s.dirPath.length ≤ 99 ∧ ∀ r ∈ s.replies, r.Fits

end Dialogue

/-- The info file can be read and has at most 73 characters in front of a NUL. -/
def InfoFile.Short : InfoFile → Prop
  | .content chars => (infoText chars).length ≤ 73
  | .missing | .unreadable => False

instance : (info : InfoFile) → Decidable info.Short
  | .content _ => inferInstanceAs (Decidable (_ ≤ _))
  | .missing | .unreadable => isFalse id

namespace Dialogue

/-- The path that the reply to `cd` shows, if there is one. -/
def shownPath (fs : FileSystem D) (cwd : D) (dirPath command : List Char) : Option (List Char) :=
  (tempPath dirPath (argument command)).map fun temp =>
    if (fs.resolve cwd temp).isSome then temp else dirPath

/-- The message has room for an argument, and the path in the reply at most 54 characters. -/
def ShowsShort (fs : FileSystem D) (cwd : D) (dirPath command : List Char) : Prop :=
  29 ≤ command.length ∧ ∃ p ∈ shownPath fs cwd dirPath command, p.length ≤ 54

/-- A message that can be answered in 100 bytes. -/
def Answerable (fs : FileSystem D) (cwd : D) (info : InfoFile) (junk : List Char) (s : Dialogue)
    (command : List Char) : Prop :=
  match parseCommand command with
  | .info => info.Short
  | .echo => 31 ≤ command.length ∧ (s.served = false → (echoText command ++ junk).length ≤ 73)
  | .cd => ShowsShort fs cwd s.dirPath command
  | .list => ((fs.resolve cwd s.dirPath).bind fs.entries).isSome = true
  | .quit | .unknown => True

/-- The condition on the state and the event. -/
def RoomFor (fs : FileSystem D) (s : Dialogue) : Event D → Prop
  | .greet info => info.Short
  | .serve message cwd info junk => Answerable fs cwd info junk s message.chars

variable {fs : FileSystem D} {cwd : D} {info : InfoFile} {junk dirPath command : List Char}
  {s t : Dialogue}

theorem infoReply_fits_iff : (infoReply info).Fits ↔ info.Short := by
  cases info with
  | missing | unreadable => rfl
  | content chars =>
    simp only [infoReply, Reply.Fits, InfoFile.Short, stampLength]
    omega

theorem current_fits_iff : (current dirPath).Fits ↔ dirPath.length ≤ 54 := by
  have hpre : "Current directory: ".toList.length = 19 := rfl
  simp only [current, Reply.Fits, List.length_append, stampLength]
  omega

theorem changeDirectory_fits_iff :
    (changeDirectory fs cwd dirPath command).2.Fits ↔ ShowsShort fs cwd dirPath command := by
  rw [changeDirectory, ShowsShort, shownPath, change]
  by_cases hlen : command.length < 3 + stampLength
  · have hshort : ¬ 29 ≤ command.length := Nat.not_le_of_lt hlen
    simp [hlen, hshort, Reply.Fits]
  · have hlong : 29 ≤ command.length := Nat.le_of_not_lt hlen
    rw [if_neg hlen, and_iff_right hlong]
    cases tempPath dirPath (argument command) with
    | none => simp [Reply.Fits]
    | some temp => cases hd : fs.resolve cwd temp <;> simp [hd, current_fits_iff]

/-- What `cd` stores fits where its reply does. -/
theorem changeDirectory_length_le (h : ShowsShort fs cwd dirPath command) :
    (changeDirectory fs cwd dirPath command).1.length ≤ 54 := by
  obtain ⟨hlong, p, hp, hle⟩ := h
  obtain ⟨temp, htemp, rfl⟩ := Option.map_eq_some_iff.mp hp
  have hlen : ¬ command.length < 3 + stampLength := Nat.not_lt_of_le hlong
  rw [changeDirectory, change, if_neg hlen, htemp]
  cases hd : fs.resolve cwd temp <;> simpa [hd] using hle

/-- The session goes on with its new `dirPath` where the reply fits. -/
theorem changeDirectory_dirPath (c : Session D) :
    (c.changeDirectory fs cwd command).2.map Session.dirPath =
      if (changeDirectory fs cwd c.dirPath command).2.Fits then
        some (changeDirectory fs cwd c.dirPath command).1
      else none := by
  have hfits : ∀ p : List Char, (current p).Fits ↔ Lab8.Fits p := by
    intro p
    have hpre : "Current directory: ".length = 19 := rfl
    rw [current_fits_iff, Lab8.Fits]
    simp only [hpre, stampLength]
    omega
  rw [Session.changeDirectory, changeDirectory]
  cases change fs cwd c.dirPath command with
  | wraps | absolute => rfl
  | moved d temp =>
    simp only [hfits]
    split_ifs <;> rfl
  | failed =>
    simp only [hfits]
    split_ifs <;> rfl

theorem listReplies_fit_iff :
    (∀ r ∈ listReplies fs cwd dirPath, r.Fits) ↔
      ((fs.resolve cwd dirPath).bind fs.entries).isSome = true := by
  rw [listReplies]
  cases (fs.resolve cwd dirPath).bind fs.entries <;> simp [Reply.Fits]

theorem echoReply_fits_iff (served : Bool) (h : command.length ≤ 99) :
    (echoReply served junk command).Fits ↔
      31 ≤ command.length ∧ (served = false → (echoText command ++ junk).length ≤ 73) := by
  have hecho : (echoText command).length ≤ command.length - 5 - stampLength := by
    rw [echoText, List.length_take]
    exact Nat.min_le_left _ _
  have hstamp : stampLength = 26 := rfl
  by_cases hlen : command.length < 5 + stampLength
  · rw [echoReply, if_pos hlen]
    simp only [Reply.Fits, false_iff]
    omega
  · have hlong : 31 ≤ command.length := by omega
    rw [echoReply, if_neg hlen, and_iff_right hlong, Reply.Fits]
    cases served with
    | true =>
      simp only [if_true, List.append_nil, Bool.true_eq_false, false_imp_iff, iff_true]
      omega
    | false =>
      simp only [Bool.false_eq_true, if_false, forall_const]
      omega

theorem fitting_reply_iff (h : s.Fitting) (r : Reply) : (s.reply r).Fitting ↔ r.Fits := by
  obtain ⟨hpath, hreplies⟩ := h
  simp only [Fitting, reply, List.mem_append, List.mem_singleton]
  constructor
  · rintro ⟨-, hall⟩
    exact hall r (.inr rfl)
  · intro hr
    refine ⟨hpath, ?_⟩
    rintro r' (hr' | rfl)
    · exact hreplies r' hr'
    · exact hr

/-- Serving a message keeps everything in its buffers exactly where there is room for the reply. -/
theorem fitting_serve_iff (h : s.Fitting) (hsize : command.length ≤ 99) :
    (serve fs cwd info junk s command).Fitting ↔ Answerable fs cwd info junk s command := by
  rw [serve, Answerable]
  cases parseCommand command with
  | info => exact (fitting_reply_iff h _).trans infoReply_fits_iff
  | quit => exact (fitting_reply_iff h _).trans (iff_of_true (by decide) trivial)
  | echo => exact (fitting_reply_iff h _).trans (echoReply_fits_iff s.served hsize)
  | cd =>
    simp only
    rw [← changeDirectory_fits_iff, ← fitting_reply_iff h]
    constructor
    · intro hfit
      exact ⟨h.1, hfit.2⟩
    · intro hfit
      have hshows := changeDirectory_fits_iff.mp ((fitting_reply_iff h _).mp hfit)
      exact ⟨Nat.le_trans (changeDirectory_length_le hshows) (by decide), hfit.2⟩
  | list =>
    rw [← listReplies_fit_iff]
    simp only [Fitting, List.mem_append]
    constructor
    · intro hfit r hr
      exact hfit.2 r (.inr hr)
    · intro hall
      exact ⟨h.1, fun r hr => hr.elim (h.2 r) (hall r)⟩
  | unknown => exact (fitting_reply_iff h _).trans (iff_of_true (by decide) trivial)

theorem fitting_next_iff {e : Event D} (h : s.Fitting) (hnext : next fs s e = some t) :
    t.Fitting ↔ RoomFor fs s e := by
  cases e with
  | greet info =>
    obtain ⟨-, rfl⟩ := Option.ite_none_right_eq_some.mp hnext |>.imp_right Option.some.inj
    exact (fitting_reply_iff h _).trans infoReply_fits_iff
  | serve message cwd info junk =>
    obtain ⟨-, rfl⟩ := Option.ite_none_right_eq_some.mp hnext |>.imp_right Option.some.inj
    exact fitting_serve_iff h message.size

/-- In every session, all texts fit exactly as long as there is room for each reply. -/
theorem fitting_iff {path : List Char} {es : List (Event D)} {t : Dialogue}
    (hpath : path.length ≤ 99) (hrun : exec (next fs) (start path) es = some t) :
    Throughout (next fs) Fitting (start path) es ↔
      StepsMeet (next fs) (RoomFor fs) (start path) es := by
  have hstart : (start path).Fitting := ⟨hpath, by simp [start]⟩
  apply throughout_iff_stepsMeet (I := Fitting) _ _ _ hstart hrun
  · exact fun s e t hs hok hnext => (fitting_next_iff hs hnext).mpr hok
  · exact fun s hs => hs
  · exact fun s e t hs hok hnext hfit => hok ((fitting_next_iff hs hnext).mp hfit)

/-- The first `cd` of the client, as it arrives. -/
def firstMessage : Request := ⟨stamped "cd ".toList noon.chars, by decide⟩

/-- The greeting and the first `cd`. -/
def arrival : List (Event Unit) :=
  [.greet (.content "welcome".toList), .serve firstMessage () .missing []]

theorem fitting_iff_arrival :
    (exec (next rootOnly) (start "/srv".toList) arrival).isSome = true ∧
    ∀ t, exec (next rootOnly) (start "/srv".toList) arrival = some t →
      (Throughout (next rootOnly) Fitting (start "/srv".toList) arrival ↔
        StepsMeet (next rootOnly) (RoomFor rootOnly) (start "/srv".toList) arrival) :=
  ⟨by decide, fun _ => fitting_iff (by decide)⟩

/-- A start path of 61 characters. -/
def deepPath : List Char := '/' :: List.replicate 60 'a'

/-- The first reply to `cd` does not fit. -/
theorem deepPath_not_fitting :
    deepPath.length ≤ 99 ∧ ¬ Throughout (next rootOnly) Fitting (start deepPath) arrival := by
  refine ⟨by decide, fun h => ?_⟩
  have hlast : (exec (next rootOnly) (start deepPath) arrival).map (fun t => t.replies) =
      some [.buffer "welcome".toList, current (deepPath ++ ['/'])] := by
    decide +kernel
  obtain ⟨t, hrun, hreplies⟩ := Option.map_eq_some_iff.mp hlast
  have hfits := (h arrival (List.prefix_refl _) t hrun).2 (current (deepPath ++ ['/']))
    (by rw [hreplies]; simp)
  rw [current_fits_iff] at hfits
  exact absurd hfits (by decide)

end Dialogue

end OsispLabs.Lab8
