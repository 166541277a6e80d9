import OsispLabs.Lab8.Command
import OsispLabs.Lib.Execution

/-!
# One listing

`sendDirectoryListing` of the server and `getListDirectory` of the client on one connection, where
every `read` returns the message of one `send`. What `opendir`, `readdir`, `lstat` and `readlink`
return is the directory.
-/
namespace OsispLabs.Lab8
open Lib

/-- An entry that `readdir` returns, with what `lstat` and `readlink` tell about it. -/
structure DirEntry where
  name : List Char
  lstat : Option EntryKind
  deriving DecidableEq

/-- What `snprintf` leaves of the line of an entry in a buffer of 1024 bytes. -/
def DirEntry.text (e : DirEntry) : Option (List Char) :=
  (e.lstat.bind (entryText e.name)).map (List.take 1023)

/-- A message that `sendDirectoryListing` sends. -/
inductive Message where
  | line (text : List Char)
  | done
  deriving DecidableEq

/-- The message as the client finds it in its buffer. -/
def Message.text : Message → List Char
  | .line text => text
  | .done => "done".toList

/-- The line of an entry. -/
def Message.line? : Message → Option (List Char)
  | .line text => some text
  | .done => none

/-- Where the server stands: at `opendir`, in the `readdir` loop, or at its end. Where `opendir`
fails, `sendMessage` appends to a literal and the process crashes. -/
inductive Sender where
  | opening
  | listing (entries : List DirEntry)
  | finished
  | crashed
  deriving DecidableEq

/-- Where the client stands: in its loop, behind it, or at the `exit` for a closed connection. -/
inductive Receiver where
  | reading
  | returned
  | exited
  deriving DecidableEq

/-- Both sides, the messages under way, and what has been sent, taken and printed. -/
structure Listing where
  sender : Sender
  receiver : Receiver
  underWay : List Message
  sent : List Message
  taken : List Message
  printed : List (List Char)

inductive Side where
  | server
  | client
  deriving DecidableEq

/-- The lines of the entries that have one. -/
def lineMessages (entries : List DirEntry) : List Message :=
  (entries.filterMap DirEntry.text).map .line

/-- A bound on the steps of the server that are left. -/
def Sender.rank (dir : Option (List DirEntry)) : Sender → ℕ
  | .opening => 2 * (dir.getD []).length + 3
  | .listing entries => 2 * entries.length + 2
  | .finished | .crashed => 0

def Receiver.rank : Receiver → ℕ
  | .reading => 1
  | .returned | .exited => 0

namespace Listing

/-- The client has sent its `list` command and the server has received it. -/
def start : Listing := ⟨.opening, .reading, [], [], [], []⟩

def send (s : Listing) (m : Message) (sender : Sender) : Listing :=
  { s with sender := sender, underWay := s.underWay ++ [m], sent := s.sent ++ [m] }

/-- A turn of the client's loop for the message that it reads. -/
def take (s : Listing) (m : Message) (underWay : List Message) : Listing :=
  if starts "done" m.text then
    { s with receiver := .returned, underWay := underWay, taken := s.taken ++ [m] }
  else { s with
    underWay := underWay, taken := s.taken ++ [m], printed := s.printed ++ [m.text] }

def stepServer (dir : Option (List DirEntry)) (s : Listing) : Option Listing :=
  match s.sender with
  | .opening =>
    match dir with
    | some entries => some { s with sender := .listing entries }
    | none => some { s with sender := .crashed }
  | .listing [] => some (s.send .done .finished)
  | .listing (e :: entries) =>
    match e.text with
    | some text => some (s.send (.line text) (.listing entries))
    | none => some { s with sender := .listing entries }
  | .finished | .crashed => none

def stepClient (s : Listing) : Option Listing :=
  match s.receiver with
  | .reading =>
    match s.underWay with
    | m :: underWay => some (s.take m underWay)
    | [] => if s.sender = .crashed then some { s with receiver := .exited } else none
  | .returned | .exited => none

def next (dir : Option (List DirEntry)) (s : Listing) : Side → Option Listing
  | .server => s.stepServer dir
  | .client => s.stepClient

/-- The loops of both sides have ended. -/
def Over (s : Listing) : Prop := s.sender = .finished ∧ s.receiver = .returned

/-- Both loops end, and then the client has taken what the server sent and has printed a line for
each entry that it sent, in order, and nothing else. -/
structure ListsAll (dir : Option (List DirEntry)) : Prop where
  progress : ∀ as s, exec (next dir) start as = some s → ¬ s.Over → ∃ a, (next dir s a).isSome
  bounded : ∃ n, ∀ as s, exec (next dir) start as = some s → as.length ≤ n
  taken : ∀ as s, exec (next dir) start as = some s → s.Over → s.taken = s.sent
  printed : ∀ as s, exec (next dir) start as = some s → s.Over →
    s.printed = s.sent.filterMap Message.line?

/-- What the server has sent, by the place where it stands. -/
def SentBy (dir : Option (List DirEntry)) (sent : List Message) : Sender → Prop
  | .opening => sent = []
  | .listing rest =>
    ∃ entries, dir = some entries ∧ sent ++ lineMessages rest = lineMessages entries
  | .finished => ∃ entries, dir = some entries ∧ sent = lineMessages entries ++ [.done]
  | .crashed => dir = none

/-- What the client has made of the messages that it took, by the place where it stands. -/
def PrintedBy (taken : List Message) (printed : List (List Char)) : Receiver → Prop
  | .reading => printed = taken.map Message.text ∧ ∀ text ∈ printed, starts "done" text = false
  | .returned => (∃ last, taken.map Message.text = printed ++ [last] ∧ starts "done" last = true) ∧
      ∀ text ∈ printed, starts "done" text = false
  | .exited => True

/-- The invariant of all interleavings. -/
structure Consistent (dir : Option (List DirEntry)) (s : Listing) : Prop where
  sent : SentBy dir s.sent s.sender
  underWay : s.taken ++ s.underWay = s.sent
  printed : PrintedBy s.taken s.printed s.receiver
  exited : s.receiver = .exited → s.sender = .crashed

variable {dir : Option (List DirEntry)} {s t : Listing}

theorem start_consistent : start.Consistent dir := ⟨rfl, rfl, ⟨rfl, nofun⟩, nofun⟩

theorem lineMessages_cons (e : DirEntry) (entries : List DirEntry) : lineMessages (e :: entries) =
    e.text.toList.map .line ++ lineMessages entries := by
  cases h : e.text <;> simp [lineMessages, h]

theorem Consistent.send (hs : s.Consistent dir) {m : Message} {sender : Sender}
    (hsent : SentBy dir (s.sent ++ [m]) sender) (hsender : s.sender ≠ .crashed) :
    (s.send m sender).Consistent dir where
  sent := hsent
  underWay := by simp [Listing.send, ← hs.underWay]
  printed := hs.printed
  exited h := absurd (hs.exited h) hsender

theorem Consistent.server (hs : s.Consistent dir) (h : s.stepServer dir = some t) :
    t.Consistent dir := by
  have hsent := hs.sent
  unfold stepServer at h
  split at h
  · rename_i hsender
    rw [hsender] at hsent
    have hexited : s.receiver ≠ .exited := fun he => by simp [hs.exited he] at hsender
    have hnil : s.sent = [] := hsent
    split at h <;> cases h
    · exact ⟨⟨_, rfl, by rw [hnil, List.nil_append]⟩, hs.underWay, hs.printed, fun he =>
        absurd he hexited⟩
    · exact ⟨rfl, hs.underWay, hs.printed, fun _ => rfl⟩
  · rename_i hsender
    rw [hsender] at hsent
    obtain ⟨entries, hdir, hall⟩ := hsent
    cases h
    refine hs.send ⟨entries, hdir, ?_⟩ (by simp [hsender])
    rw [← hall]
    simp [lineMessages]
  · rename_i e rest hsender
    rw [hsender] at hsent
    obtain ⟨entries, hdir, hall⟩ := hsent
    rw [lineMessages_cons] at hall
    split at h <;> rename_i htext <;> cases h
    · refine hs.send ⟨entries, hdir, ?_⟩ (by simp [hsender])
      rw [← hall, htext, List.append_assoc]
      rfl
    · refine ⟨⟨entries, hdir, ?_⟩, hs.underWay, hs.printed, fun he => ?_⟩
      · rw [← hall, htext]
        rfl
      · simp [hs.exited he] at hsender
  · cases h
  · cases h

theorem Consistent.client (hs : s.Consistent dir) (h : s.stepClient = some t) :
    t.Consistent dir := by
  have hprinted := hs.printed
  unfold stepClient at h
  split at h
  · rename_i hreceiver
    rw [hreceiver] at hprinted
    obtain ⟨heq, hlines⟩ := hprinted
    split at h
    · rename_i m underWay hunder
      have hmove : (s.taken ++ [m]) ++ underWay = s.sent := by
        rw [← hs.underWay, hunder, List.append_assoc, List.singleton_append]
      cases h
      unfold take
      split
      · rename_i hdone
        exact ⟨hs.sent, hmove, ⟨⟨m.text, by simp [heq], hdone⟩, hlines⟩, nofun⟩
      · rename_i hline
        have hnext : PrintedBy (s.taken ++ [m]) (s.printed ++ [m.text]) .reading := by
          refine ⟨by simp [heq], fun text htext => ?_⟩
          rcases List.mem_append.mp htext with hold | hnew
          · exact hlines text hold
          · rw [List.mem_singleton.mp hnew]
            simpa using hline
        rw [← hreceiver] at hnext
        exact ⟨hs.sent, hmove, hnext, hs.exited⟩
    · obtain ⟨hcrashed, rfl⟩ := Option.ite_none_right_eq_some.mp h |>.imp_right Option.some.inj
      exact ⟨hs.sent, hs.underWay, trivial, fun _ => hcrashed⟩
  · cases h
  · cases h

theorem run_consistent {as : List Side} (hrun : exec (next dir) start as = some s) :
    s.Consistent dir := by
  apply exec_invariant (I := Consistent dir) _ start_consistent hrun
  intro s a t hs h
  cases a with
  | server => exact hs.server h
  | client => exact hs.client h

/-- A bound on the steps that are left. -/
def remaining (dir : Option (List DirEntry)) (s : Listing) : ℕ :=
  s.sender.rank dir + s.underWay.length + s.receiver.rank

theorem remaining_server (h : s.stepServer dir = some t) : t.remaining dir < s.remaining dir := by
  unfold stepServer at h
  split at h
  · rename_i hsender
    split at h <;> cases h <;> simp [remaining, Sender.rank, hsender]
  · rename_i hsender
    cases h
    simp only [remaining, Sender.rank, hsender, send, List.length_append, List.length_nil,
      List.length_singleton]
    omega
  · rename_i e rest hsender
    split at h <;> cases h <;>
      simp only [remaining, Sender.rank, hsender, send, List.length_append, List.length_cons,
        List.length_nil] <;> omega
  · cases h
  · cases h

theorem remaining_client (h : s.stepClient = some t) : t.remaining dir < s.remaining dir := by
  unfold stepClient at h
  split at h
  · rename_i hreceiver
    split at h
    · rename_i m underWay hunder
      cases h
      unfold take
      split <;> simp only [remaining, Receiver.rank, hunder, hreceiver, List.length_cons] <;> omega
    · obtain ⟨-, rfl⟩ := Option.ite_none_right_eq_some.mp h |>.imp_right Option.some.inj
      simp [remaining, Receiver.rank, hreceiver]
  · cases h
  · cases h

theorem run_length_le {as : List Side} (hrun : exec (next dir) start as = some s) :
    as.length ≤ start.remaining dir := by
  have h := exec_length_le (I := fun _ : Listing => True) (m := remaining dir)
    (fun _ _ _ _ _ => trivial)
    (fun s a t _ h => by
      cases a with
      | server => exact remaining_server h
      | client => exact remaining_client h)
    trivial hrun
  omega

/-- Among the lines no one begins like the end of the listing. -/
def Plain (entries : List DirEntry) : Prop :=
  ∀ e ∈ entries, ∀ text ∈ e.text, starts "done" text = false

instance (entries : List DirEntry) : Decidable (Plain entries) :=
  inferInstanceAs (Decidable (∀ e ∈ entries, ∀ text ∈ e.text, _))

theorem plain_iff (entries : List DirEntry) : Plain entries ↔
    ∀ text ∈ entries.filterMap DirEntry.text, starts "done" text = false := by
  simp only [Plain, List.mem_filterMap]
  constructor
  · rintro h text ⟨e, he, htext⟩
    exact h e he text htext
  · intro h e he text htext
    exact h text ⟨e, he, htext⟩

theorem texts_eq (entries : List DirEntry) :
    (lineMessages entries ++ [Message.done]).map Message.text =
      entries.filterMap DirEntry.text ++ ["done".toList] := by
  simp [lineMessages, Message.text, Function.comp_def]

theorem lines_eq (entries : List DirEntry) :
    (lineMessages entries ++ [Message.done]).filterMap Message.line? =
      entries.filterMap DirEntry.text := by
  simp [lineMessages, Message.line?, List.filterMap_map, Function.comp_def]

/-- Where no line begins like the end, a client that has returned has taken everything. -/
theorem Consistent.taken (hs : s.Consistent dir) {entries : List DirEntry}
    (hplain : Plain entries) (hsent : s.sent = lineMessages entries ++ [.done])
    (hreturned : s.receiver = .returned) : s.taken = s.sent := by
  have hprinted := hs.printed
  rw [hreturned] at hprinted
  obtain ⟨⟨last, htexts, hdone⟩, -⟩ := hprinted
  have hunder := hs.underWay
  rcases List.eq_nil_or_concat s.underWay with hnil | ⟨front, m, hfront⟩
  · rw [← hunder, hnil, List.append_nil]
  · rw [hsent, hfront, List.concat_eq_append, ← List.append_assoc] at hunder
    obtain ⟨hlines, -⟩ := List.append_inj' hunder rfl
    have hmem : last ∈ entries.filterMap DirEntry.text := by
      have hmap := congrArg (List.map Message.text) hlines
      rw [List.map_append, htexts] at hmap
      have htext : (lineMessages entries).map Message.text = entries.filterMap DirEntry.text := by
        simp [lineMessages, Message.text, Function.comp_def]
      rw [← htext, ← hmap]
      simp
    rw [(plain_iff entries).mp hplain last hmem] at hdone
    cases hdone

theorem Consistent.progress (hs : s.Consistent dir) {entries : List DirEntry}
    (hdir : dir = some entries) (h : ¬ s.Over) : ∃ a, (next dir s a).isSome := by
  have hsent := hs.sent
  cases hsender : s.sender with
  | opening => exact ⟨.server, by simp [next, stepServer, hsender, hdir]⟩
  | listing rest =>
    refine ⟨.server, ?_⟩
    cases rest with
    | nil => simp [next, stepServer, hsender]
    | cons e rest => cases htext : e.text <;> simp [next, stepServer, hsender, htext]
  | crashed =>
    rw [hsender] at hsent
    cases hsent.symm.trans hdir
  | finished =>
    rw [hsender] at hsent
    obtain ⟨entries', -, hsent⟩ := hsent
    cases hreceiver : s.receiver with
    | returned => exact absurd ⟨hsender, hreceiver⟩ h
    | exited =>
      rw [hs.exited hreceiver] at hsender
      cases hsender
    | reading =>
      refine ⟨.client, ?_⟩
      have hprinted := hs.printed
      rw [hreceiver] at hprinted
      cases hunder : s.underWay with
      | cons m underWay => simp [next, stepClient, hreceiver, hunder]
      | nil =>
        have htaken := hs.underWay
        rw [hunder, List.append_nil, hsent] at htaken
        have hlast : "done".toList ∈ s.printed := by
          rw [hprinted.1, htaken, texts_eq]
          simp
        exact absurd (hprinted.2 _ hlast) (by decide)

/-- The listing is complete exactly if the directory can be opened and no line begins with
`done`. -/
theorem listsAll_iff (dir : Option (List DirEntry)) :
    ListsAll dir ↔ ∃ entries, dir = some entries ∧ Plain entries := by
  constructor
  · intro h
    obtain ⟨n, hn⟩ := h.bounded
    obtain ⟨as, s, hrun, hover⟩ := exists_exec_final h.progress hn
    have hs := run_consistent hrun
    have hsent := hs.sent
    rw [hover.1] at hsent
    obtain ⟨entries, hdir, hsent⟩ := hsent
    refine ⟨entries, hdir, (plain_iff entries).mpr ?_⟩
    have hprinted := hs.printed
    rw [hover.2] at hprinted
    rw [← lines_eq, ← hsent, ← h.printed as s hrun hover]
    exact hprinted.2
  · rintro ⟨entries, hdir, hplain⟩
    have hfinished : ∀ as s, exec (next dir) start as = some s → s.Over →
        s.Consistent dir ∧ s.sent = lineMessages entries ++ [.done] := by
      intro as s hrun hover
      have hs := run_consistent hrun
      have hsent := hs.sent
      rw [hover.1] at hsent
      obtain ⟨entries', hdir', hsent⟩ := hsent
      cases hdir.symm.trans hdir'
      exact ⟨hs, hsent⟩
    constructor
    · intro as s hrun hnot
      exact (run_consistent hrun).progress hdir hnot
    · exact ⟨_, fun as s hrun => run_length_le hrun⟩
    · intro as s hrun hover
      obtain ⟨hs, hsent⟩ := hfinished as s hrun hover
      exact hs.taken hplain hsent hover.2
    · intro as s hrun hover
      obtain ⟨hs, hsent⟩ := hfinished as s hrun hover
      have hprinted := hs.printed
      rw [hover.2] at hprinted
      obtain ⟨⟨last, htexts, -⟩, -⟩ := hprinted
      rw [hs.taken hplain hsent hover.2, hsent, texts_eq] at htexts
      rw [hsent, lines_eq]
      exact (List.append_inj' htexts rfl).1.symm

/-- A directory with a file whose name begins with `done`, and another file after it. -/
def doneFile : List DirEntry := [⟨"done.txt".toList, some .other⟩, ⟨"notes".toList, some .other⟩]

/-- The client returns at the first entry, and two messages are left unread. -/
theorem doneFile_not_listed : ∃ as s, exec (next (some doneFile)) start as = some s ∧ s.Over ∧
    s.printed = [] ∧ s.underWay = [.line "notes".toList, .done] := by
  have hrun : exec (next (some doneFile)) start
    [.server, .server, .client, .server, .server] = some _ := rfl
  exact ⟨_, _, hrun, ⟨rfl, rfl⟩, rfl, rfl⟩

end Listing

end OsispLabs.Lab8
