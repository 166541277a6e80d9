import OsispLabs.Lab8.Codec
import OsispLabs.Lab8.Lockstep

/-!
# The prompt over a whole session

The client keeps no directory of its own: `path` is what its `changeDirectory` cut out of the last
reply. Over a whole dialogue the prompt follows the session's `dirPath`, behind a blank, as long as
every `cd` goes through that function; one in a file does not.
-/
namespace OsispLabs.Lab8
open Lib

variable {D : Type*} {fs : FileSystem D} {cwd : D}

section Text

theorem starts_cd_iff {text : List Char} :
    starts "cd" text = true ↔ ∃ rest, text = 'c' :: 'd' :: rest := by
  rw [starts, List.isPrefixOf_iff_prefix]
  constructor
  · intro hprefix
    obtain ⟨rest, hrest⟩ := hprefix
    exact ⟨rest, hrest.symm⟩
  · intro htext
    obtain ⟨rest, hrest⟩ := htext
    exact ⟨rest, hrest.symm⟩

theorem starts_false_of_starts {word : String} {text : List Char} (h : starts word text = true)
    (hword : word.toList.head?.any (· ≠ 'c') = true) : starts "cd" text = false := by
  rw [Bool.eq_false_iff, Ne, starts_cd_iff]
  rintro ⟨rest, rfl⟩
  rw [starts, List.isPrefixOf_iff_prefix] at h
  obtain ⟨tail, htail⟩ := h
  cases hlist : word.toList with
  | nil => simp [hlist] at hword
  | cons a as =>
    rw [hlist] at htail hword
    simp only [List.cons_append, List.cons.injEq] at htail
    simp [htail.1] at hword

theorem parseCommand_eq_cd_iff {text : List Char} :
    parseCommand text = .cd ↔ starts "cd" text = true := by
  constructor
  · intro h
    unfold parseCommand at h
    split_ifs at h with hquit hinfo hecho hcd
    exact hcd
  · rw [starts_cd_iff]
    rintro ⟨rest, rfl⟩
    rfl

/-- The last character of a line gives way to the timestamp. -/
theorem parseCommand_dropLast {line : List Char} (timestamp : List Char) :
    parseCommand (stamped line.dropLast timestamp) = .cd ↔
      starts "cd" line = true ∧ 3 ≤ line.length := by
  rw [parseCommand_eq_cd_iff, starts_cd_iff, starts_cd_iff]
  match line with
  | [] | [a] => simp [stamped]
  | [a, b] => simp [stamped]
  | a :: b :: c :: rest => simp [stamped, List.dropLast]

end Text

/-- The line of the file that the client sends next. -/
def Mode.fileLine : Mode → Option (List Char)
  | .file lines => lines.head?
  | .greeting | .connecting | .prompt | .reply _ | .listing | .stopped => none

/-- A dialogue with the client's `path`, and whether its next reply goes to `changeDirectory`. -/
structure Prompted (D : Type*) where
  exchange : Exchange D
  path : Option (List Char)
  changing : Bool

namespace Prompted
open Exchange

/-- `path` is not initialised before the first `cd`. -/
def start (path : List Char) : Prompted D := ⟨.start path, none, false⟩

/-- `main` calls `changeDirectory` for its first `cd` and for every typed line that begins with
`cd`. -/
def next (fs : FileSystem D) (p : Prompted D) (a : Action D) : Option (Prompted D) :=
  (p.exchange.next fs a).map fun s =>
    match a with
    | .connect _ => ⟨s, p.path, true⟩
    | .typed line _ _ => ⟨s, p.path, starts "cd" line⟩
    | .read => ⟨s, if p.changing then p.exchange.toClient.head?.bind promptOf else p.path, false⟩
    | .greet .. | .serve .. | .proceed _ | .fileLine _ | .hangUp => ⟨s, p.path, p.changing⟩

/-- Harmless steps with timestamps of the usual length, in which a typed `cd` has a character
behind it and no line of a file is a `cd`. -/
def Announced (fs : FileSystem D) (p : Prompted D) : Action D → Prop
  | .proceed cwd => p.exchange.Harmless fs (.proceed cwd)
  | .serve _ _ _ timestamp => timestamp.length = 23
  | .typed line _ _ => starts "cd" line = true → 3 ≤ line.length
  | .fileLine timestamp => ∀ line ∈ p.exchange.mode.fileLine,
      parseCommand (stamped line.dropLast timestamp) ≠ .cd
  | .greet .. | .connect _ | .read | .hangUp => True

/-- The prompt shows the session's `dirPath`. -/
def Shows (p : Prompted D) : Prop :=
  ∀ c ∈ p.exchange.session, p.path = some (' ' :: c.dirPath ++ "> ".toList)

/-- No `cd` is under way. -/
structure Plain (p : Prompted D) : Prop where
  changing : p.changing = false
  shows_path : p.Shows
  asked : ∀ command ∈ p.exchange.toServer, parseCommand command ≠ .cd

/-- A `cd` is under way, or its reply with the `dirPath` that the session now has. -/
structure Moving (p : Prompted D) : Prop where
  changing : p.changing = true
  asked : ∀ command ∈ p.exchange.toServer, parseCommand command = .cd
  answered : p.exchange.toServer = [] → ∀ c ∈ p.exchange.session, ∃ timestamp : Timestamp,
    p.exchange.toClient = [stamped ("Current directory: ".toList ++ c.dirPath) timestamp.chars]

/-- The invariant, by the place where the client stands. -/
structure Synced (p : Prompted D) : Prop where
  inStep : p.exchange.InStep
  path : match p.exchange.mode with
    | .greeting | .connecting => p.changing = false
    | .prompt | .file _ => p.changing = false ∧ p.Shows
    | .reply _ => p.Plain ∨ p.Moving
    | .listing => p.Plain
    | .stopped => True

variable {p q : Prompted D}

theorem start_synced (path : List Char) : (start path : Prompted D).Synced :=
  ⟨start_inStep path, rfl⟩

section Server

variable {s t : Exchange D} {c c' : Session D}

theorem sendMessage_eq_some {text timestamp : List Char} {r : Option (Session D)}
    (h : (sendMessage text timestamp r).2 = some c) : r = some c := by
  unfold sendMessage at h
  split at h
  · exact h
  · cases h

theorem sendInfo_eq_some {info : Option (List Char)} {timestamp : List Char}
    (h : (sendInfoAboutServer info timestamp c).2 = some c') : c' = c := by
  cases info with
  | none => cases h
  | some text => exact (Option.some.inj (sendMessage_eq_some h)).symm

/-- Only a `cd` changes the `dirPath` of a session that goes on. -/
theorem waitConnection_dirPath {info : Option (List Char)} {junk timestamp command : List Char}
    (hcommand : parseCommand command ≠ .cd)
    (h : (waitConnection fs cwd info junk timestamp c command).2 = some c') :
    c'.dirPath = c.dirPath := by
  unfold waitConnection at h
  cases hparse : parseCommand command with
  | cd => exact absurd hparse hcommand
  | info =>
    rw [hparse] at h
    rw [sendInfo_eq_some h]
  | quit =>
    rw [hparse] at h
    cases sendMessage_eq_some h
  | unknown =>
    rw [hparse] at h
    cases sendMessage_eq_some h
    rfl
  | echo =>
    simp only [hparse] at h
    split at h
    · cases h
    · cases sendMessage_eq_some h
      rfl
  | list =>
    simp only [hparse] at h
    split at h
    · rename_i d hopen
      cases h
      obtain ⟨e, -, hopen⟩ := Option.bind_eq_some_iff.mp hopen
      obtain ⟨names, -, rfl⟩ := Option.map_eq_some_iff.mp hopen
      rfl
    · cases h

/-- A `cd` is answered with the `dirPath` that the session has from then on. -/
theorem waitConnection_cd {info : Option (List Char)} {junk command : List Char}
    (timestamp : Timestamp) (hcommand : parseCommand command = .cd)
    (h : (waitConnection fs cwd info junk timestamp.chars c command).2 = some c') :
    (waitConnection fs cwd info junk timestamp.chars c command).1 =
      [stamped ("Current directory: ".toList ++ c'.dirPath) timestamp.chars] := by
  simp only [waitConnection, hcommand] at h ⊢
  split at h
  · rename_i d hd
    cases h
    exact newFrames_changeDirectory hd
  · cases h

/-- The server greets before everything else. -/
theorem greeting_of_inStep (hs : s.InStep) (hc : s.session = some c)
    (hgreeted : s.greeted = false) : s.mode = .greeting := by
  unfold InStep at hs
  split at hs
  · assumption
  · simp [hgreeted] at hs
  · simp [hgreeted] at hs
  · simp [hgreeted] at hs
  · simp [hgreeted] at hs
  · simp [hgreeted] at hs
  · simp [hgreeted, hc] at hs

end Server

section Step

theorem Synced.reply (hp : p.Synced) {after : After} (hmode : p.exchange.mode = .reply after) :
    p.Plain ∨ p.Moving := by
  have hpath := hp.path
  rw [hmode] at hpath
  exact hpath

theorem Synced.listing (hp : p.Synced) (hmode : p.exchange.mode = .listing) : p.Plain := by
  have hpath := hp.path
  rw [hmode] at hpath
  exact hpath

theorem synced_reply (hin : p.exchange.InStep) {after : After}
    (hmode : p.exchange.mode = .reply after) (hpath : p.Plain ∨ p.Moving) : p.Synced :=
  ⟨hin, by rw [hmode]; exact hpath⟩

theorem synced_listing (hin : p.exchange.InStep) (hmode : p.exchange.mode = .listing)
    (hpath : p.Plain) : p.Synced := ⟨hin, by rw [hmode]; exact hpath⟩

theorem synced_stopped (hin : p.exchange.InStep) (hmode : p.exchange.mode = .stopped) :
    p.Synced := ⟨hin, by rw [hmode]; trivial⟩

/-- Where the client goes on, the prompt shows the `dirPath`. -/
theorem synced_after (hin : p.exchange.InStep) (after : After)
    (hmode : p.exchange.mode = after.mode) (hchanging : p.changing = false) (hshows : p.Shows) :
    p.Synced := by
  refine ⟨hin, ?_⟩
  rw [hmode]
  cases after with
  | prompt => exact ⟨hchanging, hshows⟩
  | stop => trivial
  | file lines => exact ⟨hchanging, hshows⟩

theorem next_serve {info : Option (List Char)} {junk : List Char} (timestamp : Timestamp)
    {s : Exchange D} (hp : p.Synced)
    (h : p.exchange.next fs (.serve cwd info junk timestamp.chars) = some s)
    (hin : s.InStep) : (⟨s, p.path, p.changing⟩ : Prompted D).Synced := by
  obtain ⟨c, hc, h⟩ := Option.bind_eq_some_iff.mp h
  split at h
  · split at h
    · cases h
    · rename_i command rest hto
      cases h
      obtain ⟨-, hasked, hmode⟩ := hp.inStep.asked (by rw [hc]; nofun) (by rw [hto]; nofun)
      obtain ⟨command', hone⟩ := hasked.toServer
      obtain ⟨rfl, rfl⟩ : command = command' ∧ rest = [] := by simpa [hto] using hone
      have hplain : p.Plain → Plain ⟨answer { p.exchange with toServer := [] }
          (waitConnection fs cwd info junk timestamp.chars c command).1
          (waitConnection fs cwd info junk timestamp.chars c command).2, p.path, p.changing⟩ := by
        intro hplain
        refine ⟨hplain.changing, fun c' hc' => ?_, nofun⟩
        have hmem : command ∈ p.exchange.toServer := by
          rw [hto]
          exact List.mem_cons_self
        rw [waitConnection_dirPath (hplain.asked command hmem) hc']
        exact hplain.shows_path c hc
      rcases hmode with ⟨after, hmode⟩ | hmode
      · refine synced_reply hin hmode ?_
        rcases hp.reply hmode with hpath | hpath
        · exact .inl (hplain hpath)
        · refine .inr ⟨hpath.changing, nofun, fun _ c' hc' => ⟨timestamp, ?_⟩⟩
          simp only [answer, hasked.toClient, List.nil_append]
          exact waitConnection_cd timestamp
            (hpath.asked command (by rw [hto]; exact List.mem_cons_self)) hc'
      · exact synced_listing hin hmode (hplain (hp.listing hmode))
  · cases h

theorem next_proceed {s : Exchange D} (hp : p.Synced)
    (h : p.exchange.next fs (.proceed cwd) = some s) (hin : s.InStep) :
    (⟨s, p.path, p.changing⟩ : Prompted D).Synced := by
  obtain ⟨c, hc, h⟩ := Option.bind_eq_some_iff.mp h
  obtain ⟨c', hc', rfl⟩ := Option.map_eq_some_iff.mp h
  obtain ⟨hbusy, -⟩ := Session.proceed_frame [] hc'
  have hplain : p.Plain → Plain ⟨p.exchange.extend (newFrames [] c c') c', p.path, p.changing⟩ := by
    intro hplain
    refine ⟨hplain.changing, fun d hd => ?_, hplain.asked⟩
    cases hd
    rw [Session.proceed_dirPath hc']
    exact hplain.shows_path c hc
  rcases (hp.inStep.busy hc hbusy).2 with ⟨after, hmode, hsingle⟩ | ⟨hmode, -⟩
  · refine synced_reply hin hmode ?_
    rcases hp.reply hmode with hpath | hpath
    · exact .inl (hplain hpath)
    · obtain ⟨timestamp, hclient⟩ := hpath.answered hsingle.1.toServer c hc
      rcases hsingle.2.2 with hnil | ⟨hidle, -⟩
      · rw [hclient] at hnil
        cases hnil
      · exact absurd (hidle c hc) hbusy
  · exact synced_listing hin hmode (hplain (hp.listing hmode))

/-- A command that is not a `cd` is sent. -/
theorem sendCommand_plain {line timestamp : List Char} {mode : Mode}
    (hmode : (∃ after, mode = .reply after) ∨ mode = .listing) (hquiet : p.exchange.Quiet)
    (hshows : p.Shows) (hcommand : parseCommand (stamped line.dropLast timestamp) ≠ .cd)
    (hin : (p.exchange.sendCommandToServer line timestamp mode).InStep) :
    (⟨p.exchange.sendCommandToServer line timestamp mode, p.path, false⟩ : Prompted D).Synced := by
  unfold sendCommandToServer at hin ⊢
  split at hin
  · rename_i hfits
    rw [if_pos hfits]
    have hplain : Plain ⟨{ p.exchange with
        toServer := p.exchange.toServer ++ [stamped line.dropLast timestamp]
        mode := mode }, p.path, false⟩ := by
      refine ⟨rfl, hshows, fun command hmem => ?_⟩
      simp only [hquiet.toServer, List.nil_append, List.mem_singleton] at hmem
      exact hmem ▸ hcommand
    rcases hmode with ⟨after, rfl⟩ | rfl
    · exact synced_reply hin rfl (.inl hplain)
    · exact synced_listing hin rfl hplain
  · rename_i hlong
    rw [if_neg hlong]
    exact synced_stopped hin rfl

/-- The client's `changeDirectory` sends its command. -/
theorem sendCommand_moving {line timestamp : List Char} {after : After}
    (hquiet : p.exchange.Quiet) (hcommand : parseCommand (stamped line.dropLast timestamp) = .cd)
    (hin : (p.exchange.sendCommandToServer line timestamp (.reply after)).InStep) :
    (⟨p.exchange.sendCommandToServer line timestamp (.reply after), p.path, true⟩ :
      Prompted D).Synced := by
  unfold sendCommandToServer at hin ⊢
  split at hin
  · rename_i hfits
    rw [if_pos hfits]
    refine synced_reply hin rfl (.inr ⟨rfl, fun command hmem => ?_, fun hnil => ?_⟩)
    · simp only [hquiet.toServer, List.nil_append, List.mem_singleton] at hmem
      exact hmem ▸ hcommand
    · simp at hnil
  · rename_i hlong
    rw [if_neg hlong]
    exact synced_stopped hin rfl

theorem next_typed {line timestamp : List Char} {lines : Option (List (List Char))}
    (hp : p.Synced) (hok : starts "cd" line = true → 3 ≤ line.length)
    (hmode : p.exchange.mode = .prompt) (hin : (p.exchange.typed line lines timestamp).InStep) :
    (⟨p.exchange.typed line lines timestamp, p.path, starts "cd" line⟩ :
      Prompted D).Synced := by
  obtain ⟨hstep, hpath⟩ := hp
  unfold InStep at hstep
  simp only [hmode] at hstep hpath
  obtain ⟨-, hquiet⟩ := hstep
  have hplain : starts "cd" line = false →
      parseCommand (stamped line.dropLast timestamp) ≠ .cd := by
    intro hnot hcd
    rw [((parseCommand_dropLast timestamp).mp hcd).1] at hnot
    cases hnot
  unfold typed at hin ⊢
  split at hin
  · rename_i hfile
    have hcd := starts_false_of_starts hfile (by decide)
    rw [if_pos hfile, hcd]
    cases lines with
    | some lines => exact ⟨hin, rfl, hpath.2⟩
    | none => exact synced_after hin .prompt hmode rfl hpath.2
  · rename_i hfile
    rw [if_neg hfile]
    split at hin
    · rename_i hlist
      have hcd := starts_false_of_starts hlist (by decide)
      rw [if_pos hlist, hcd]
      exact sendCommand_plain (.inr rfl) hquiet hpath.2 (hplain hcd) hin
    · rename_i hlist
      rw [if_neg hlist]
      split at hin
      · rename_i hquit
        have hcd := starts_false_of_starts hquit (by decide)
        rw [if_pos hquit, hcd]
        exact sendCommand_plain (.inl ⟨_, rfl⟩) hquiet hpath.2 (hplain hcd) hin
      · rename_i hquit
        rw [if_neg hquit]
        cases hcd : starts "cd" line with
        | true =>
          exact sendCommand_moving hquiet ((parseCommand_dropLast timestamp).mpr ⟨hcd, hok hcd⟩) hin
        | false => exact sendCommand_plain (.inl ⟨_, rfl⟩) hquiet hpath.2 (hplain hcd) hin

theorem next_read {s : Exchange D} (hp : p.Synced) (h : p.exchange.read = some s)
    (hin : s.InStep) :
    (⟨s, if p.changing then p.exchange.toClient.head?.bind promptOf else p.path, false⟩ :
      Prompted D).Synced := by
  unfold Exchange.read at h
  split at h
  · cases h
  · rename_i f frames hclient
    dsimp only at h
    split at h
    · cases h
      exact ⟨hin, rfl⟩
    · rename_i after hmode
      cases h
      refine synced_after hin after rfl rfl ?_
      rcases hp.reply hmode with hpath | hpath
      · intro c hc
        simp only [hpath.changing, Bool.false_eq_true, if_false]
        exact hpath.shows_path c hc
      · intro c hc
        obtain ⟨-, hwait⟩ := (inStep_reply hmode).mp hp.inStep
        have hsingle := hwait.resolve_left fun h => by simp [h.toClient] at hclient
        obtain ⟨timestamp, hframe⟩ := hpath.answered hsingle.1.toServer c hc
        simp only [hpath.changing, if_true, hframe, List.head?_cons, Option.bind_some]
        exact promptOf_current c.dirPath timestamp
    · rename_i hmode
      have hpath := hp.listing hmode
      have hshows : Shows ⟨s, if p.changing then p.exchange.toClient.head?.bind promptOf
          else p.path, false⟩ := by
        intro c hc
        simp only [hpath.changing, Bool.false_eq_true, if_false]
        refine hpath.shows_path c ?_
        split at h <;> cases h <;> exact hc
      split at h
      · cases h
        exact synced_after hin .prompt rfl rfl hshows
      · cases h
        exact synced_listing hin hmode ⟨rfl, hshows, hpath.asked⟩
    all_goals cases h

theorem next_synced (p : Prompted D) (a : Action D) (q : Prompted D) (hp : p.Synced)
    (hok : p.Announced fs a) (h : p.next fs a = some q) : q.Synced := by
  obtain ⟨s, hs, rfl⟩ := Option.map_eq_some_iff.mp h
  have hharmless : p.exchange.Harmless fs a := by
    cases a with
    | proceed cwd => exact hok
    | greet | serve | connect | typed | fileLine | read | hangUp => trivial
  have hin := next_inStep hp.inStep hharmless hs
  cases a with
  | greet info timestamp =>
    obtain ⟨c, hc, hgreet⟩ := Option.bind_eq_some_iff.mp hs
    split at hgreet
    · cases hgreet
    · rename_i hgreeted
      cases hgreet
      have hmode := greeting_of_inStep hp.inStep hc (by simpa using hgreeted)
      have hpath := hp.path
      rw [hmode] at hpath
      refine ⟨hin, ?_⟩
      simpa only [answer, hmode] using hpath
  | serve cwd info junk timestamp => exact next_serve ⟨timestamp, hok⟩ hp hs hin
  | proceed cwd => exact next_proceed hp hs hin
  | connect timestamp =>
    simp only [Exchange.next, Option.ite_none_right_eq_some, Option.some.injEq] at hs
    obtain ⟨hmode, rfl⟩ := hs
    have hstep := hp.inStep
    unfold InStep at hstep
    rw [hmode] at hstep
    exact sendCommand_moving hstep.2 rfl hin
  | typed line lines timestamp =>
    simp only [Exchange.next, Option.ite_none_right_eq_some, Option.some.injEq] at hs
    obtain ⟨⟨hmode, -⟩, rfl⟩ := hs
    exact next_typed hp hok hmode hin
  | fileLine timestamp =>
    have hpath := hp.path
    have hstep := hp.inStep
    unfold InStep at hstep
    simp only [Exchange.next] at hs
    split at hs
    · rename_i hmode
      rw [hmode] at hpath
      cases hs
      exact synced_after hin .prompt rfl hpath.1 hpath.2
    · rename_i line lines hmode
      rw [hmode] at hpath hstep
      cases hs
      have hcommand : parseCommand (stamped line.dropLast timestamp) ≠ .cd :=
        hok line (by rw [hmode]; rfl)
      have hsynced := sendCommand_plain (.inl ⟨_, rfl⟩) hstep.2 hpath.2 hcommand hin
      rw [← hpath.1] at hsynced
      exact hsynced
    · cases hs
  | read => exact next_read hp hs hin
  | hangUp =>
    simp only [Exchange.next, Option.ite_none_right_eq_some, Option.some.injEq] at hs
    obtain ⟨-, rfl⟩ := hs
    exact synced_stopped hin rfl

end Step

/-- Through every interleaving, with any commands, listings and directories, the prompt that the
client shows is the `dirPath` of its session, behind a blank. -/
theorem run_shows (fs : FileSystem D) (path : List Char) (as : List (Action D)) (p : Prompted D)
    (hok : StepsMeet (next fs) (Announced fs) (start path) as)
    (hrun : exec (next fs) (start path) as = some p) (hmode : p.exchange.mode = .prompt) :
    p.Shows := by
  have hpath := (exec_invariant_of_steps next_synced (start_synced path) hok hrun).path
  rw [hmode] at hpath
  exact hpath.2

instance (fs : FileSystem D) (p : Prompted D) : (a : Action D) → Decidable (p.Announced fs a)
  | .proceed cwd => inferInstanceAs (Decidable (p.exchange.Harmless fs (.proceed cwd)))
  | .serve _ _ _ timestamp => inferInstanceAs (Decidable (timestamp.length = 23))
  | .typed line _ _ => inferInstanceAs (Decidable (starts "cd" line = true → 3 ≤ line.length))
  | .fileLine timestamp => inferInstanceAs (Decidable (∀ line ∈ p.exchange.mode.fileLine,
      parseCommand (stamped line.dropLast timestamp) ≠ .cd))
  | .greet .. | .connect _ | .read | .hangUp => isTrue trivial

/-- The client goes into a directory and lists it. -/
def movedAndListed : List (Action Unit) :=
  connected ++ [.typed "cd x\n".toList none someTime, .serve () none [] someTime, .read,
    .typed "list\n".toList none someTime, .serve () none [] someTime, .proceed (), .read]

theorem run_shows_moved :
    ∃ p, exec (next rootOnly) (start "/".toList) movedAndListed = some p ∧ p.Shows ∧
      p.path = some " ///x> ".toList :=
  have hrun : exec (next rootOnly) (start "/".toList) movedAndListed = some _ := rfl
  ⟨_, hrun, run_shows rootOnly "/".toList movedAndListed _ (by decide) hrun rfl, rfl⟩

end Prompted

end OsispLabs.Lab8
