import OsispLabs.Lab8.Exchange

/-!
# Request and response in lockstep

Every command that the client has finished took exactly the frames the server sent for it, as
long as the server sends no directory line that the client does not take as one: while the client
waits for a single reply, or a line that begins like the end of the listing.
-/
namespace OsispLabs.Lab8
open Lib

variable {D : Type*} {fs : FileSystem D} {cwd : D}

namespace Session

variable {c c' : Session D} {timestamp : List Char}

/-- The line that the next turn of the `readdir` loop sends. -/
def nextLine (fs : FileSystem D) (cwd : D) (c : Session D) : Option (List Char) :=
  match c.task with
  | .command | .listing [] => none
  | .listing (name :: _) =>
    match fs.lstat cwd c.dirPath name with
    | none | some (.link _) => none
    | some kind => entryText name kind
  | .linking name _ =>
    match fs.lstat cwd c.dirPath name with
    | some (.link target) => entryText name (.link target)
    | _ => none

theorem newFrames_emit (o : Output D) (h : c'.outputs = c.outputs ++ [o]) :
    newFrames timestamp c c' = (o.frame timestamp).toList := by
  rw [newFrames, h, List.drop_left]
  cases o <;> rfl

theorem newFrames_same (h : c'.outputs = c.outputs) : newFrames timestamp c c' = [] := by
  rw [newFrames, h, List.drop_length]
  rfl

theorem changeDirectory_frame (timestamp : List Char) {command : List Char}
    (h : (c.changeDirectory fs cwd command).2 = some c') :
    c'.task = .command ∧ ∃ f, newFrames timestamp c c' = [f] := by
  obtain ⟨-, temp, -, ⟨d, -, -, rfl⟩ | ⟨-, -, rfl⟩⟩ := changeDirectory_eq_some_iff.mp h
  · exact ⟨rfl, _, newFrames_emit (.current (some d) temp) rfl⟩
  · exact ⟨rfl, _, newFrames_emit (.current none c.dirPath) rfl⟩

theorem openDirectory_frame (h : c.openDirectory fs cwd = some c') :
    newFrames timestamp c c' = [] := by
  obtain ⟨d, _, h⟩ := Option.bind_eq_some_iff.mp h
  obtain ⟨names, _, rfl⟩ := Option.map_eq_some_iff.mp h
  exact newFrames_emit (.enumerates d) rfl

theorem sendEntry_frame (c : Session D) (name : List Char) (kind : EntryKind)
    (names : List (List Char)) :
    (c.sendEntry name kind names).task ≠ .command ∧
      newFrames timestamp c (c.sendEntry name kind names) = (entryText name kind).toList := by
  unfold sendEntry
  cases entryText name kind with
  | some text => exact ⟨nofun, newFrames_emit (.line text) rfl⟩
  | none => exact ⟨nofun, newFrames_same rfl⟩

/-- A turn of the `readdir` loop ends the listing or sends the next line, if there is one. -/
theorem proceed_frame (timestamp : List Char) (h : c.proceed fs cwd = some c') :
    c.task ≠ .command ∧ ((c'.task = .command ∧ newFrames timestamp c c' = ["done".toList]) ∨
      (c'.task ≠ .command ∧ newFrames timestamp c c' = (c.nextLine fs cwd).toList)) := by
  unfold proceed at h
  unfold nextLine
  cases htask : c.task with
  | command =>
    rw [htask] at h
    cases h
  | listing entries =>
    refine ⟨nofun, ?_⟩
    cases entries with
    | nil =>
      rw [htask] at h
      cases h
      exact .inl ⟨rfl, newFrames_emit .done rfl⟩
    | cons name names =>
      right
      rw [htask] at h
      dsimp only at h ⊢
      cases hstat : fs.lstat cwd c.dirPath name with
      | none =>
        rw [hstat] at h
        cases h
        exact ⟨nofun, newFrames_same rfl⟩
      | some kind =>
        rw [hstat] at h
        cases kind with
        | link target =>
          cases h
          exact ⟨nofun, newFrames_same rfl⟩
        | directory =>
          cases h
          exact c.sendEntry_frame name .directory names
        | other =>
          cases h
          exact c.sendEntry_frame name .other names
  | linking name names =>
    refine ⟨nofun, .inr ?_⟩
    rw [htask] at h
    dsimp only at h ⊢
    cases hstat : fs.lstat cwd c.dirPath name with
    | none =>
      rw [hstat] at h
      cases h
      exact ⟨nofun, newFrames_same rfl⟩
    | some kind =>
      rw [hstat] at h
      cases kind with
      | link target =>
        cases h
        exact c.sendEntry_frame name (.link target) names
      | directory =>
        cases h
        exact ⟨nofun, newFrames_same rfl⟩
      | other =>
        cases h
        exact ⟨nofun, newFrames_same rfl⟩

end Session

theorem After.mode_cases (after : After) :
    after.mode = .connecting ∨ after.mode = .prompt ∨ (∃ lines, after.mode = .file lines) ∨
      after.mode = .stopped := by
  cases after with
  | prompt => exact .inr (.inl rfl)
  | stop => exact .inr (.inr (.inr rfl))
  | file lines => exact .inr (.inr (.inl ⟨lines, rfl⟩))

namespace Exchange

/-- What the client took for each finished command is the server's whole answer to that command. -/
def Lockstep (s : Exchange D) : Prop := s.shown <+: s.answers

/-- The server does not send a directory line unless the client reads a listing and the line does
not begin with `done`. -/
def Harmless (fs : FileSystem D) (s : Exchange D) : Action D → Prop
  | .proceed cwd => ∀ c ∈ s.session, ∀ text ∈ c.nextLine fs cwd,
      s.mode = .listing ∧ starts "done" text = false
  | _ => True

instance (fs : FileSystem D) (s : Exchange D) : (a : Action D) → Decidable (s.Harmless fs a)
  | .proceed cwd => inferInstanceAs (Decidable (∀ c ∈ s.session, ∀ text ∈ c.nextLine fs cwd, _))
  | .greet .. | .serve .. | .connect _ | .typed .. | .fileLine _ | .read | .hangUp =>
    isTrue trivial

/-- The server is waiting for a message, or has ended. -/
def Idle (s : Exchange D) : Prop := ∀ c ∈ s.session, c.task = .command

/-- Nothing is under way. -/
structure Quiet (s : Exchange D) : Prop where
  idle : s.Idle
  toServer : s.toServer = []
  toClient : s.toClient = []
  got : s.got = []
  answers : s.answers = s.shown

/-- A command is under way to the server. -/
structure Asked (s : Exchange D) : Prop where
  idle : s.Idle
  toServer : ∃ command, s.toServer = [command]
  toClient : s.toClient = []
  got : s.got = []
  answers : s.answers = s.shown

/-- The server has started to answer, and the client has to take `toClient` and what follows. -/
structure Answering (s : Exchange D) : Prop where
  toServer : s.toServer = []
  answers : s.answers = s.shown ++ [s.got ++ s.toClient]

/-- For a single reply there is at most one frame, the last. -/
def Single (s : Exchange D) : Prop :=
  s.Answering ∧ s.got = [] ∧ (s.toClient = [] ∨ s.Idle ∧ ∃ f, s.toClient = [f])

/-- In a listing only the last frame can be its end. -/
def Listed (s : Exchange D) : Prop :=
  s.Answering ∧ ∃ lines last, s.toClient = lines ++ last ∧
    (∀ f ∈ lines, starts "done" f = false) ∧ (last = [] ∨ s.Idle ∧ ∃ f, last = [f])

/-- The invariant, by the place where the client stands. -/
def InStep (s : Exchange D) : Prop :=
  match s.mode with
  | .greeting => s.Idle ∧ s.toServer = [] ∧ s.got = [] ∧ s.shown = [] ∧
      (s.greeted = false ∧ s.answers = [] ∧ s.toClient = [] ∨
        s.greeted = true ∧ s.answers = [s.toClient] ∧ (s.toClient = [] ∨ ∃ f, s.toClient = [f]))
  | .connecting | .prompt | .file _ => s.greeted = true ∧ s.Quiet
  | .reply _ => s.greeted = true ∧ (s.Asked ∨ s.Single)
  | .listing => s.greeted = true ∧ (s.Asked ∨ s.Listed)
  | .stopped => s.Lockstep ∧ (s.session = none ∨ s.greeted = true ∧ s.Idle ∧ s.toServer = [])

variable {s t : Exchange D}

theorem start_inStep (path : List Char) : (start path : Exchange D).InStep :=
  ⟨fun c hc => by obtain rfl := Option.some.inj hc; rfl, rfl, rfl, rfl, .inl ⟨rfl, rfl, rfl⟩⟩

theorem Answering.lockstep (h : s.Answering) : s.Lockstep := by
  unfold Lockstep
  rw [h.answers]
  exact List.prefix_append _ _

theorem lockstep_of_eq (h : s.answers = s.shown) : s.Lockstep := by
  simp [Lockstep, h]

theorem InStep.lockstep (h : s.InStep) : s.Lockstep := by
  unfold InStep at h
  split at h
  · unfold Lockstep
    rw [h.2.2.2.1]
    exact List.nil_prefix
  · exact lockstep_of_eq h.2.answers
  · exact lockstep_of_eq h.2.answers
  · exact lockstep_of_eq h.2.answers
  · exact h.2.elim (fun h => lockstep_of_eq h.answers) fun h => h.1.lockstep
  · exact h.2.elim (fun h => lockstep_of_eq h.answers) fun h => h.1.lockstep
  · exact h.1

section Server

theorem sendMessage_frames (text timestamp : List Char) {c : Option (Session D)}
    (hc : ∀ c' ∈ c, c'.task = .command) :
    ((sendMessage text timestamp c).1 = [] ∨ ∃ f, (sendMessage text timestamp c).1 = [f]) ∧
      ∀ c' ∈ (sendMessage text timestamp c).2, c'.task = .command := by
  unfold sendMessage
  split
  · exact ⟨.inr ⟨_, rfl⟩, hc⟩
  · exact ⟨.inl rfl, nofun⟩

theorem sendInfo_frames (info : Option (List Char)) (timestamp : List Char) {c : Session D}
    (hc : c.task = .command) :
    ((sendInfoAboutServer info timestamp c).1 = [] ∨
        ∃ f, (sendInfoAboutServer info timestamp c).1 = [f]) ∧
      ∀ c' ∈ (sendInfoAboutServer info timestamp c).2, c'.task = .command := by
  cases info with
  | none => exact ⟨.inl rfl, nofun⟩
  | some text => exact sendMessage_frames text timestamp fun c' h => Option.some.inj h ▸ hc

/-- A message is answered with one frame at once, or with none so far. -/
theorem waitConnection_frames (fs : FileSystem D) (cwd : D) (info : Option (List Char))
    (junk timestamp : List Char) {c : Session D} (hc : c.task = .command)
    (command : List Char) :
    (waitConnection fs cwd info junk timestamp c command).1 = [] ∨
      (∃ f, (waitConnection fs cwd info junk timestamp c command).1 = [f]) ∧
        ∀ c' ∈ (waitConnection fs cwd info junk timestamp c command).2, c'.task = .command := by
  have hself : ∀ c' ∈ some c, c'.task = .command := fun c' h => Option.some.inj h ▸ hc
  unfold waitConnection
  cases parseCommand command with
  | info =>
    obtain ⟨hframes, hidle⟩ := sendInfo_frames info timestamp hc
    exact hframes.imp_right fun h => ⟨h, hidle⟩
  | quit =>
    obtain ⟨hframes, hidle⟩ := sendMessage_frames (D := D) "BYE".toList timestamp (c := none) nofun
    exact hframes.imp_right fun h => ⟨h, hidle⟩
  | echo =>
    dsimp only
    split
    · exact .inl rfl
    · obtain ⟨hframes, hidle⟩ := sendMessage_frames (echoText command ++ junk) timestamp hself
      exact hframes.imp_right fun h => ⟨h, hidle⟩
  | cd =>
    dsimp only
    split
    · rename_i c' h
      obtain ⟨htask, hframe⟩ := Session.changeDirectory_frame timestamp h
      exact .inr ⟨hframe, fun d hd => Option.some.inj hd ▸ htask⟩
    · exact .inl rfl
  | list =>
    dsimp only
    split
    · rename_i c' h
      exact .inl (Session.openDirectory_frame h)
    · exact .inl rfl
  | unknown =>
    obtain ⟨hframes, hidle⟩ := sendMessage_frames "Unknown command".toList timestamp hself
    exact hframes.imp_right fun h => ⟨h, hidle⟩

/-- The reply to a command under way: nothing else was sent before it. -/
theorem Asked.answering (h : s.Asked) (frames : List Frame) (c : Option (Session D)) :
    (answer { s with toServer := [] } frames c).Answering where
  toServer := rfl
  answers := by
    simp only [answer, h.answers, h.got, h.toClient, List.nil_append]

/-- Only a client that waits for a reply has a command under way. -/
theorem InStep.asked (hs : s.InStep) (hsession : s.session ≠ none) (hto : s.toServer ≠ []) :
    s.greeted = true ∧ s.Asked ∧ ((∃ after, s.mode = .reply after) ∨ s.mode = .listing) := by
  unfold InStep at hs
  split at hs
  · exact absurd hs.2.1 hto
  · exact absurd hs.2.toServer hto
  · exact absurd hs.2.toServer hto
  · exact absurd hs.2.toServer hto
  · rename_i after hmode
    exact ⟨hs.1, hs.2.resolve_right fun h => hto h.1.toServer, .inl ⟨after, hmode⟩⟩
  · rename_i hmode
    exact ⟨hs.1, hs.2.resolve_right fun h => hto h.1.toServer, .inr hmode⟩
  · exact absurd (hs.2.resolve_left hsession).2.2 hto

theorem inStep_reply {after : After} (hmode : s.mode = .reply after) :
    s.InStep ↔ s.greeted = true ∧ (s.Asked ∨ s.Single) := by
  unfold InStep
  rw [hmode]

theorem inStep_listing (hmode : s.mode = .listing) :
    s.InStep ↔ s.greeted = true ∧ (s.Asked ∨ s.Listed) := by
  unfold InStep
  rw [hmode]

theorem Listed.inStep (hs : s.Listed) (hgreeted : s.greeted = true) (hmode : s.mode = .listing) :
    s.InStep := (inStep_listing hmode).mpr ⟨hgreeted, .inr hs⟩

theorem Asked.inStep (hs : s.Asked) (hgreeted : s.greeted = true)
    (hmode : (∃ after, s.mode = .reply after) ∨ s.mode = .listing) {frames : List Frame}
    {c : Option (Session D)}
    (hframes : frames = [] ∨ (∃ f, frames = [f]) ∧ ∀ c' ∈ c, c'.task = .command) :
    (answer { s with toServer := [] } frames c).InStep := by
  have hanswering := hs.answering frames c
  have hclient : (answer { s with toServer := [] } frames c).toClient = frames := by
    simp only [answer, hs.toClient, List.nil_append]
  rcases hmode with ⟨after, hmode⟩ | hmode
  · have hmode' : (answer { s with toServer := [] } frames c).mode = .reply after := hmode
    refine (inStep_reply hmode').mpr ⟨hgreeted, .inr ⟨hanswering, hs.got, ?_⟩⟩
    rw [hclient]
    exact hframes.imp_right fun h => ⟨h.2, h.1⟩
  · have hmode' : (answer { s with toServer := [] } frames c).mode = .listing := hmode
    refine (inStep_listing hmode').mpr
      ⟨hgreeted, .inr ⟨hanswering, [], frames, hclient, nofun, ?_⟩⟩
    exact hframes.imp_right fun h => ⟨h.2, h.1⟩

theorem next_serve (hs : s.InStep) {info : Option (List Char)} {junk timestamp : List Char}
    (h : s.next fs (.serve cwd info junk timestamp) = some t) : t.InStep := by
  obtain ⟨c, hc, h⟩ := Option.bind_eq_some_iff.mp h
  split at h
  · rename_i hidle
    split at h
    · cases h
    · rename_i command rest hto
      obtain ⟨hgreeted, hasked, hmode⟩ := hs.asked (by rw [hc]; nofun) (by rw [hto]; nofun)
      obtain ⟨_, hone⟩ := hasked.toServer
      rw [hto] at hone
      cases hone
      cases h
      exact hasked.inStep hgreeted hmode
        (waitConnection_frames fs cwd info junk timestamp hidle.2 command)
  · cases h

theorem next_greet (hs : s.InStep) {info : Option (List Char)} {timestamp : List Char}
    (h : s.next fs (.greet info timestamp) = some t) : t.InStep := by
  obtain ⟨c, hc, h⟩ := Option.bind_eq_some_iff.mp h
  split at h
  · cases h
  · rename_i hgreeted
    cases h
    unfold InStep at hs
    split at hs
    · rename_i hmode
      obtain ⟨hidle, hto, hgot, hshown, hnew⟩ := hs
      obtain ⟨_, hanswers, hclient⟩ := hnew.resolve_right fun h => hgreeted h.1
      obtain ⟨hframes, hidle'⟩ := sendInfo_frames info timestamp (hidle c hc)
      unfold InStep
      simp only [answer, hmode, hanswers, hclient, List.nil_append]
      exact ⟨hidle', hto, hgot, hshown, .inr ⟨trivial, trivial, hframes⟩⟩
    · exact absurd hs.1 hgreeted
    · exact absurd hs.1 hgreeted
    · exact absurd hs.1 hgreeted
    · exact absurd hs.1 hgreeted
    · exact absurd hs.1 hgreeted
    · exact absurd (hs.2.resolve_left (by rw [hc]; nofun)).1 hgreeted

theorem Answering.extend (hs : s.Answering) (frames : List Frame) (c : Session D) :
    (s.extend frames c).Answering where
  toServer := hs.toServer
  answers := by
    simp only [Exchange.extend, hs.answers, List.dropLast_concat, List.getLastD_concat,
      List.append_assoc]

/-- A session in its `readdir` loop answers a client that waits for a reply. -/
theorem InStep.busy (hs : s.InStep) {c : Session D} (hc : s.session = some c)
    (hbusy : c.task ≠ .command) :
    s.greeted = true ∧ ((∃ after, s.mode = .reply after ∧ s.Single) ∨
      (s.mode = .listing ∧ s.Listed)) := by
  have hnot : ¬ s.Idle := fun h => hbusy (h c hc)
  unfold InStep at hs
  split at hs
  · exact absurd hs.1 hnot
  · exact absurd hs.2.idle hnot
  · exact absurd hs.2.idle hnot
  · exact absurd hs.2.idle hnot
  · rename_i after hmode
    exact ⟨hs.1, .inl ⟨after, hmode, hs.2.resolve_left fun h => hnot h.idle⟩⟩
  · rename_i hmode
    exact ⟨hs.1, .inr ⟨hmode, hs.2.resolve_left fun h => hnot h.idle⟩⟩
  · exact absurd (hs.2.resolve_left (by rw [hc]; nofun)).2.1 hnot

theorem next_proceed (hs : s.InStep) (hok : s.Harmless fs (.proceed cwd))
    (h : s.next fs (.proceed cwd) = some t) : t.InStep := by
  obtain ⟨c, hc, h⟩ := Option.bind_eq_some_iff.mp h
  obtain ⟨c', hc', rfl⟩ := Option.map_eq_some_iff.mp h
  obtain ⟨hbusy, hframe⟩ := Session.proceed_frame [] hc'
  have hnot : ¬ s.Idle := fun h => hbusy (h c hc)
  obtain ⟨hgreeted, hwait⟩ := hs.busy hc hbusy
  rcases hwait with ⟨after, hmode, hanswering, hgot, hclient⟩ |
    ⟨hmode, hanswering, lines, last, hclient, hlines, hlast⟩
  · have hnil : s.toClient = [] := hclient.resolve_right fun h => hnot h.1
    have hmode' : (s.extend (newFrames [] c c') c').mode = .reply after := hmode
    refine (inStep_reply hmode').mpr ⟨hgreeted, .inr ⟨hanswering.extend _ _, hgot, ?_⟩⟩
    simp only [Exchange.extend, hnil, List.nil_append]
    rcases hframe with ⟨hdone, hf⟩ | ⟨_, hf⟩
    · exact .inr ⟨fun d hd => Option.some.inj hd ▸ hdone, _, hf⟩
    · left
      cases hline : c.nextLine fs cwd with
      | none => rw [hf, hline]; rfl
      | some text =>
        have hlisting := (hok c hc text hline).1
        rw [hmode] at hlisting
        cases hlisting
  · have hnil : last = [] := hlast.resolve_right fun h => hnot h.1
    rw [hnil, List.append_nil] at hclient
    have hmode' : (s.extend (newFrames [] c c') c').mode = .listing := hmode
    refine (inStep_listing hmode').mpr ⟨hgreeted, .inr ⟨hanswering.extend _ _, ?_⟩⟩
    simp only [Exchange.extend, hclient]
    rcases hframe with ⟨hdone, hf⟩ | ⟨_, hf⟩
    · exact ⟨lines, _, rfl, hlines, .inr ⟨fun d hd => Option.some.inj hd ▸ hdone, _, hf⟩⟩
    · refine ⟨lines ++ (c.nextLine fs cwd).toList, [], by rw [hf, List.append_nil], ?_, .inl rfl⟩
      intro f hmem
      rcases List.mem_append.mp hmem with hmem | hmem
      · exact hlines f hmem
      · exact (hok c hc f (Option.mem_toList.mp hmem)).2

end Server

section Client

theorem Quiet.sendCommand (hs : s.Quiet) (hgreeted : s.greeted = true) (line timestamp : List Char)
    {mode : Mode} (hmode : (∃ after, mode = .reply after) ∨ mode = .listing) :
    (s.sendCommandToServer line timestamp mode).InStep := by
  unfold sendCommandToServer
  split
  · have hasked : Asked { s with
        toServer := s.toServer ++ [stamped line.dropLast timestamp], mode := mode } :=
      ⟨hs.idle, ⟨_, by rw [hs.toServer]; rfl⟩, hs.toClient, hs.got, hs.answers⟩
    rcases hmode with ⟨after, rfl⟩ | rfl
    · exact ⟨hgreeted, .inl hasked⟩
    · exact ⟨hgreeted, .inl hasked⟩
  · exact ⟨lockstep_of_eq hs.answers, .inr ⟨hgreeted, hs.idle, hs.toServer⟩⟩

theorem Quiet.inStep (hs : s.Quiet) (hgreeted : s.greeted = true) {mode : Mode}
    (hmode : mode = .connecting ∨ mode = .prompt ∨ (∃ lines, mode = .file lines) ∨
      mode = .stopped) :
    ({ s with mode := mode } : Exchange D).InStep := by
  have hquiet : Quiet { s with mode := mode } :=
    ⟨hs.idle, hs.toServer, hs.toClient, hs.got, hs.answers⟩
  rcases hmode with rfl | rfl | ⟨lines, rfl⟩ | rfl
  · exact ⟨hgreeted, hquiet⟩
  · exact ⟨hgreeted, hquiet⟩
  · exact ⟨hgreeted, hquiet⟩
  · exact ⟨lockstep_of_eq hs.answers, .inr ⟨hgreeted, hs.idle, hs.toServer⟩⟩

theorem typed_inStep (hs : s.Quiet) (hgreeted : s.greeted = true) (hmode : s.mode = .prompt)
    (line : List Char) (lines : Option (List (List Char))) (timestamp : List Char) :
    (s.typed line lines timestamp).InStep := by
  unfold typed
  split
  · cases lines with
    | some lines => exact hs.inStep hgreeted (.inr (.inr (.inl ⟨lines, rfl⟩)))
    | none =>
      have hself := hs.inStep hgreeted (.inr (.inl hmode))
      exact hself
  · split
    · exact hs.sendCommand hgreeted line timestamp (.inr rfl)
    · split
      · exact hs.sendCommand hgreeted line timestamp (.inl ⟨_, rfl⟩)
      · exact hs.sendCommand hgreeted line timestamp (.inl ⟨_, rfl⟩)

/-- The last frame of a reply ends the command. -/
theorem Answering.finish (hs : s.Answering) (hidle : s.Idle) {f : Frame}
    (hclient : s.toClient = [f]) (hgreeted : s.greeted = true) {mode : Mode}
    (hmode : mode = .connecting ∨ mode = .prompt ∨ (∃ lines, mode = .file lines) ∨
      mode = .stopped) :
    (Exchange.finish { s with toClient := [], got := s.got ++ [f] } mode).InStep := by
  have hquiet : Quiet { s with toClient := [], got := [], shown := s.shown ++ [s.got ++ [f]] } :=
    ⟨hidle, hs.toServer, rfl, rfl, by rw [hs.answers, hclient]⟩
  exact hquiet.inStep hgreeted hmode

theorem read_greeting (hs : s.InStep) (hmode : s.mode = .greeting) {f : Frame}
    {frames : List Frame} (hclient : s.toClient = f :: frames) :
    (finish { s with toClient := frames, got := s.got ++ [f] } .connecting).InStep := by
  unfold InStep at hs
  simp only [hmode] at hs
  obtain ⟨hidle, hto, hgot, hshown, hnew⟩ := hs
  rcases hnew with ⟨_, _, hnil⟩ | ⟨hgreeted, hanswers, hone⟩
  · rw [hclient] at hnil
    cases hnil
  · obtain ⟨g, hg⟩ := hone.resolve_left (by rw [hclient]; nofun)
    rw [hclient] at hg
    cases hg
    have hanswering : s.Answering :=
      ⟨hto, by rw [hanswers, hshown, hgot, List.nil_append, List.nil_append]⟩
    exact hanswering.finish hidle hclient hgreeted (.inl rfl)

theorem read_reply (hs : s.InStep) {after : After} (hmode : s.mode = .reply after) {f : Frame}
    {frames : List Frame} (hclient : s.toClient = f :: frames) :
    (finish { s with toClient := frames, got := s.got ++ [f] } after.mode).InStep := by
  obtain ⟨hgreeted, hwait⟩ := (inStep_reply hmode).mp hs
  have hnil : s.toClient ≠ [] := by rw [hclient]; nofun
  obtain ⟨hanswering, _, hone⟩ := hwait.resolve_left fun h => hnil h.toClient
  obtain ⟨hidle, g, hg⟩ := hone.resolve_left hnil
  rw [hclient] at hg
  cases hg
  exact hanswering.finish hidle hclient hgreeted after.mode_cases

/-- The first frame of a listing is its end, or one of its lines. -/
theorem read_listing (hs : s.InStep) (hmode : s.mode = .listing) {f : Frame}
    {frames : List Frame} (hclient : s.toClient = f :: frames) :
    (if starts "done" f then finish { s with toClient := frames, got := s.got ++ [f] } .prompt
      else { s with toClient := frames, got := s.got ++ [f] }).InStep := by
  obtain ⟨hgreeted, hwait⟩ := (inStep_listing hmode).mp hs
  obtain ⟨hanswering, lines, last, hsplit, hlines, hlast⟩ := hwait.resolve_left fun h => by
    have hnil := h.toClient
    rw [hclient] at hnil
    cases hnil
  have hread : Answering { s with toClient := frames, got := s.got ++ [f] } :=
    ⟨hanswering.toServer, by
      rw [hanswering.answers, hclient]
      simp only [List.append_assoc, List.singleton_append]⟩
  rw [hclient] at hsplit
  cases lines with
  | nil =>
    rw [List.nil_append] at hsplit
    obtain ⟨hidle, g, hg⟩ := hlast.resolve_left (by rw [← hsplit]; nofun)
    rw [hg] at hsplit
    cases hsplit
    split
    · exact hanswering.finish hidle hclient hgreeted (.inr (.inl rfl))
    · have hlisted : Listed { s with toClient := [], got := s.got ++ [f] } :=
        ⟨hread, [], [], rfl, nofun, .inl rfl⟩
      exact hlisted.inStep hgreeted hmode
  | cons line lines =>
    rw [List.cons_append] at hsplit
    cases hsplit
    rw [if_neg (by rw [hlines f List.mem_cons_self]; nofun)]
    have hlisted : Listed { s with toClient := lines ++ last, got := s.got ++ [f] } :=
      ⟨hread, lines, last, rfl, fun g hg => hlines g (List.mem_cons_of_mem f hg), hlast⟩
    exact hlisted.inStep hgreeted hmode

theorem read_inStep (hs : s.InStep) (h : s.read = some t) : t.InStep := by
  unfold read at h
  split at h
  · cases h
  · rename_i f frames hclient
    dsimp only at h
    split at h
    all_goals cases h
    · exact read_greeting hs ‹_› hclient
    · exact read_reply hs ‹_› hclient
    · exact read_listing hs ‹_› hclient

theorem next_inStep (hs : s.InStep) {a : Action D} (hok : s.Harmless fs a)
    (h : s.next fs a = some t) : t.InStep := by
  cases a with
  | greet info timestamp => exact next_greet hs h
  | serve cwd info junk timestamp => exact next_serve hs h
  | proceed cwd => exact next_proceed hs hok h
  | connect timestamp =>
    simp only [next, Option.ite_none_right_eq_some, Option.some.injEq] at h
    obtain ⟨hmode, rfl⟩ := h
    unfold InStep at hs
    rw [hmode] at hs
    exact hs.2.sendCommand hs.1 _ timestamp (.inl ⟨_, rfl⟩)
  | typed line lines timestamp =>
    simp only [next, Option.ite_none_right_eq_some, Option.some.injEq] at h
    obtain ⟨⟨hmode, _⟩, rfl⟩ := h
    unfold InStep at hs
    rw [hmode] at hs
    exact typed_inStep hs.2 hs.1 hmode line lines timestamp
  | fileLine timestamp =>
    simp only [next] at h
    unfold InStep at hs
    split at h
    · rename_i hmode
      rw [hmode] at hs
      cases h
      exact hs.2.inStep hs.1 (.inr (.inl rfl))
    · rename_i line lines hmode
      rw [hmode] at hs
      cases h
      exact hs.2.sendCommand hs.1 line timestamp (.inl ⟨_, rfl⟩)
    · cases h
  | read => exact read_inStep hs h
  | hangUp =>
    simp only [next, Option.ite_none_right_eq_some, Option.some.injEq] at h
    obtain ⟨⟨hnone, _, _⟩, rfl⟩ := h
    exact ⟨hs.lockstep, .inl (Option.isNone_iff_eq_none.mp hnone)⟩

end Client

/-- In every interleaving of harmless steps, whatever is typed or read from files, the client
takes for each command exactly the frames that the server sends for it. -/
theorem run_lockstep (fs : FileSystem D) (path : List Char) (as : List (Action D))
    (s : Exchange D) (hok : StepsMeet (next fs) (Harmless fs) (start path) as)
    (hrun : exec (next fs) (start path) as = some s) : s.Lockstep :=
  (exec_invariant_of_steps (I := InStep) (fun _ _ _ hs ha h => next_inStep hs ha h)
    (start_inStep path) hok hrun).lockstep

/-- A root directory with one file. -/
def flat : FileSystem Unit where
  root := ()
  enter _ _ := some ()
  entries _ := some ["notes".toList]
  kind _ _ := some .other

/-- Any time of day. -/
def someTime : List Char := List.replicate 23 '0'

/-- The greeting and the first `cd`. -/
def connected : List (Action Unit) :=
  [.greet (some "lab".toList) someTime, .read, .connect someTime, .serve () none [] someTime, .read]

theorem run_lockstep_typed :
    (exec (next flat) (start "/".toList) (connected ++ [.typed "list\n".toList none someTime,
      .serve () none [] someTime, .proceed (), .read, .proceed (), .read])).map
        (fun s => s.shown.length) = some 3 ∧
      ∀ s, exec (next flat) (start "/".toList) (connected ++
        [.typed "list\n".toList none someTime, .serve () none [] someTime, .proceed (), .read,
          .proceed (), .read]) = some s → s.Lockstep :=
  ⟨by decide, fun s => run_lockstep flat "/".toList _ s (by decide)⟩

/-- A `list` that is read from a file takes the first line of the listing for its reply. -/
theorem list_from_file_not_lockstep :
    ¬ ∀ (as : List (Action Unit)) (s : Exchange Unit),
      exec (next flat) (start "/".toList) as = some s → s.Lockstep := by
  intro hall
  have h := hall (connected ++ [.typed "@commands\n".toList (some ["list\n".toList]) someTime,
    .fileLine someTime, .serve () none [] someTime, .proceed (), .read, .proceed ()]) _ rfl
  exact absurd h (by unfold Lockstep; decide)

end Exchange

end OsispLabs.Lab8
