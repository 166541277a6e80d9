import OsispLabs.Lab8.WorkingDirectory

/-!
# Isolation of the sessions' directories

A session behaves as if it ran alone in the initial working directory, as long as the start path
is absolute or no `chdir` moves the process. With a relative start path the other sessions' `cd`
commands, and the session's own, change what its paths mean.
-/
namespace OsispLabs.Lab8
open Lib

variable {D I : Type*} [DecidableEq I]

/-- A path that does not depend on the working directory: absolute, or empty. -/
def Rooted : List Char → Prop
  | [] => True
  | c :: _ => c = '/'

instance : (path : List Char) → Decidable (Rooted path)
  | [] => isTrue trivial
  | c :: _ => inferInstanceAs (Decidable (c = '/'))

namespace Session

/-- A session alone in a fixed working directory. -/
def alone (fs : FileSystem D) (cwd : D) (c : Option (Session D)) (op : Operation) :
    Option (Option (Session D)) :=
  c.bind fun c => (c.operate fs cwd op).map Prod.snd

end Session

/-- The operations of session `i`. -/
def operationOf (i : I) (a : I × Operation) : Option Operation := if a.1 = i then some a.2 else none

/-- The start path is independent of the working directory, or the step is not a `chdir` that
moves the process to another directory. -/
def Anchored (fs : FileSystem D) (path : List Char) (s : Server I D) (a : I × Operation) : Prop :=
  Rooted path ∨ ∀ command, a.2 = .cd command → ∀ c ∈ s.session a.1,
    ∀ temp ∈ tempPath c.dirPath (argument command), ∀ d ∈ fs.resolve s.cwd temp, d = s.cwd

theorem Rooted.resolve {path : List Char} (h : Rooted path) (fs : FileSystem D) (cwd cwd' : D) :
    fs.resolve cwd path = fs.resolve cwd' path := by
  cases path with
  | nil => rfl
  | cons c path =>
    obtain rfl : c = '/' := h
    rfl

theorem Rooted.append {path : List Char} (h : Rooted path) (rest : List Char) :
    Rooted (path ++ '/' :: rest) := by
  cases path with
  | nil => rfl
  | cons c path => exact h

theorem Rooted.of_isPrefix {path path' : List Char} (h : Rooted path) (hp : path' <+: path) :
    Rooted path' := by
  obtain ⟨rest, rfl⟩ := hp
  cases path' with
  | nil => trivial
  | cons c path' => exact h

theorem parentPath_isPrefix (path : List Char) : parentPath path <+: path := by
  unfold parentPath
  split
  · rw [← List.reverse_suffix, List.reverse_reverse]
    exact (List.tail_suffix _).trans (List.dropWhile_suffix _)
  · exact List.prefix_refl path

/-- Every path that `changeDirectory` makes of a rooted one is rooted. -/
theorem Rooted.tempPath {path newDir temp : List Char} (h : Rooted path)
    (ht : tempPath path newDir = some temp) : Rooted temp := by
  unfold Lab8.tempPath at ht
  split at ht
  · cases ht
  · split at ht
    · cases ht
      exact h.of_isPrefix (parentPath_isPrefix path)
    · split at ht
      · cases ht
        exact h
      · cases ht
        exact h.append newDir

namespace Session

variable {fs : FileSystem D} {c : Session D}

theorem changeDirectory_congr (h : Rooted c.dirPath) (cwd cwd' : D) (command : List Char) :
    c.changeDirectory fs cwd command = c.changeDirectory fs cwd' command := by
  have hchange : change fs cwd c.dirPath command = change fs cwd' c.dirPath command := by
    unfold change
    cases ht : tempPath c.dirPath (argument command) with
    | none => rfl
    | some temp => simp only [(h.tempPath ht).resolve fs cwd cwd']
  rw [changeDirectory, changeDirectory, hchange]

theorem openDirectory_congr (h : Rooted c.dirPath) (cwd cwd' : D) :
    c.openDirectory fs cwd = c.openDirectory fs cwd' := by
  unfold openDirectory
  rw [h.resolve fs cwd cwd']

theorem lstat_congr {path : List Char} (h : Rooted path) (cwd cwd' : D) (name : List Char) :
    fs.lstat cwd path name = fs.lstat cwd' path name := by
  unfold FileSystem.lstat
  rw [(h.append []).resolve fs cwd cwd']

theorem proceed_congr (h : Rooted c.dirPath) (cwd cwd' : D) :
    c.proceed fs cwd = c.proceed fs cwd' := by
  unfold proceed
  simp only [lstat_congr h cwd cwd']

/-- A session with a rooted path does not depend on the working directory. -/
theorem operate_congr (h : Rooted c.dirPath) (cwd cwd' : D) (op : Operation) :
    c.operate fs cwd op = c.operate fs cwd' op := by
  cases op with
  | cd command => simp only [operate, changeDirectory_congr h cwd cwd']
  | list => simp only [operate, openDirectory_congr h cwd cwd']
  | proceed => simp only [operate, proceed_congr h cwd cwd']

theorem changeDirectory_rooted (h : Rooted c.dirPath) {cwd : D} {command : List Char}
    {c' : Session D} (hc' : (c.changeDirectory fs cwd command).2 = some c') :
    Rooted c'.dirPath := by
  obtain ⟨-, temp, ht, ⟨d, -, -, rfl⟩ | ⟨-, -, rfl⟩⟩ := changeDirectory_eq_some_iff.mp hc'
  · exact h.tempPath ht
  · exact h

/-- A session with a rooted path keeps one. -/
theorem operate_rooted (h : Rooted c.dirPath) {cwd : D} {op : Operation} {d : Option D}
    {c' : Session D} (hop : c.operate fs cwd op = some (d, some c')) : Rooted c'.dirPath := by
  cases op with
  | cd command =>
    simp only [operate, Option.ite_none_right_eq_some, Option.some.injEq] at hop
    exact changeDirectory_rooted h (congrArg Prod.snd hop.2)
  | list =>
    simp only [operate, Option.ite_none_right_eq_some, Option.some.injEq, Prod.mk.injEq,
      openDirectory] at hop
    obtain ⟨e, _, he⟩ := Option.bind_eq_some_iff.mp hop.2.2
    obtain ⟨names, _, rfl⟩ := Option.map_eq_some_iff.mp he
    exact h
  | proceed =>
    obtain ⟨e, he, heq⟩ := Option.map_eq_some_iff.mp hop
    cases heq
    rw [proceed_dirPath he]
    exact h

end Session

namespace Server

/-- The invariant: the paths of all sessions are rooted, or the process has not moved. -/
def Settled (cwd : D) (path : List Char) (s : Server I D) : Prop :=
  if Rooted path then ∀ i, ∀ c ∈ s.session i, Rooted c.dirPath else s.cwd = cwd

variable {fs : FileSystem D} {s t : Server I D} {cwd : D} {path : List Char} {a : I × Operation}

omit [DecidableEq I] in
theorem start_settled (cwd : D) (path : List Char) :
    (start cwd path : Server I D).Settled cwd path := by
  unfold Settled
  split
  · intro i c hc
    obtain rfl := Option.some.inj hc
    exact ‹Rooted path›
  · rfl

/-- A step of session `a.1`, taken apart. -/
theorem next_cases (h : s.next fs a = some t) :
    ∃ c r, s.session a.1 = some c ∧ c.operate fs s.cwd a.2 = some r ∧
      t = ⟨r.1.getD s.cwd, Function.update s.session a.1 r.2, r.2.isSome⟩ := by
  unfold next at h
  split at h
  · obtain ⟨c, hc, h⟩ := Option.bind_eq_some_iff.mp h
    obtain ⟨r, hr, rfl⟩ := Option.map_eq_some_iff.mp h
    exact ⟨c, r, hc, hr, rfl⟩
  · cases h

omit [DecidableEq I] in
/-- Only a `cd` moves the process, and only to the directory of its path. -/
theorem moved_by_cd {c : Session D} {op : Operation} {r : Option D × Option (Session D)} {d : D}
    (hop : c.operate fs s.cwd op = some r) (hd : r.1 = some d) :
    ∃ command temp, op = .cd command ∧ tempPath c.dirPath (argument command) = some temp ∧
      fs.resolve s.cwd temp = some d := by
  cases op with
  | cd command =>
    simp only [Session.operate, Option.ite_none_right_eq_some, Option.some.injEq] at hop
    obtain ⟨_, rfl⟩ := hop
    cases hchange : change fs s.cwd c.dirPath command with
    | moved d' temp =>
      rw [Session.changeDirectory, hchange] at hd
      cases hd
      exact ⟨command, temp, rfl, of_change_moved hchange⟩
    | wraps | absolute | failed =>
      rw [Session.changeDirectory, hchange] at hd
      cases hd
  | list =>
    simp only [Session.operate, Option.ite_none_right_eq_some, Option.some.injEq] at hop
    obtain ⟨_, rfl⟩ := hop
    cases hd
  | proceed =>
    obtain ⟨e, _, rfl⟩ := Option.map_eq_some_iff.mp hop
    cases hd

theorem next_settled (hs : s.Settled cwd path) (hok : Anchored fs path s a)
    (h : s.next fs a = some t) : t.Settled cwd path := by
  obtain ⟨c, r, hc, hop, rfl⟩ := next_cases h
  unfold Settled at hs ⊢
  split
  · rename_i hroot
    rw [if_pos hroot] at hs
    intro i c' hc'
    by_cases hi : i = a.1
    · subst hi
      simp only [Option.mem_def, Function.update_self] at hc'
      exact Session.operate_rooted (hs _ c hc) (hop.trans (by rw [← hc']))
    · simp only [Option.mem_def, Function.update_of_ne hi] at hc'
      exact hs i c' hc'
  · rename_i hroot
    rw [if_neg hroot] at hs
    cases hd : r.1 with
    | none => exact hs
    | some d =>
      obtain ⟨command, temp, hcd, ht, hres⟩ := moved_by_cd hop hd
      rw [Option.getD_some, ← hs]
      exact hok.resolve_left hroot command hcd c hc temp ht d hres

/-- A step of session `i` is a step of the session alone in the initial working directory. -/
theorem next_alone (hs : s.Settled cwd path) (h : s.next fs a = some t) :
    Session.alone fs cwd (s.session a.1) a.2 = some (t.session a.1) := by
  obtain ⟨c, r, hc, hop, rfl⟩ := next_cases h
  have hsame : c.operate fs cwd a.2 = c.operate fs s.cwd a.2 := by
    unfold Settled at hs
    split at hs
    · exact Session.operate_congr (hs _ c hc) _ _ _
    · rw [hs]
  rw [hc, Session.alone, Option.bind_some, hsame, hop]
  simp only [Option.map_some, Function.update_self]

/-- In an anchored run, each session ends as it would alone, with the same operations. -/
theorem run_alone (as : List (I × Operation)) (i : I)
    (hok : StepsMeet (next fs) (Anchored fs path) (start cwd path) as)
    (hrun : exec (next fs) (start cwd path) as = some s) :
    exec (Session.alone fs cwd) (some (.start path)) (as.filterMap (operationOf i)) =
      some (s.session i) := by
  refine exec_filterMap (I := Settled cwd path) (fun s : Server I D => s.session i)
    (operationOf i) (fun s a t hs ha h => next_settled hs ha h) ?_ ?_ (start_settled cwd path)
    hok hrun
  · intro s a t op hs _ h hop
    unfold operationOf at hop
    split at hop
    · rename_i hi
      cases hop
      rw [← hi]
      exact next_alone hs h
    · cases hop
  · intro s a t hs _ h hop
    obtain ⟨c, r, hc, _, rfl⟩ := next_cases h
    unfold operationOf at hop
    split at hop
    · cases hop
    · exact Function.update_of_ne (Ne.symm ‹_›) _ _

/-- Two anchored runs in which a session does the same end with the same session, the one that the
start path and its own commands determine: same replies, same listings. -/
theorem run_isolated (fs : FileSystem D) (cwd : D) (path : List Char) (i : I)
    (as bs : List (I × Operation)) (s t : Server I D)
    (has : exec (next fs) (start cwd path) as = some s)
    (hbs : exec (next fs) (start cwd path) bs = some t)
    (hoka : StepsMeet (next fs) (Anchored fs path) (start cwd path) as)
    (hokb : StepsMeet (next fs) (Anchored fs path) (start cwd path) bs)
    (hsame : as.filterMap (operationOf i) = bs.filterMap (operationOf i)) :
    s.session i = t.session i ∧
      exec (Session.alone fs cwd) (some (.start path)) (as.filterMap (operationOf i)) =
        some (s.session i) := by
  have ha := run_alone as i hoka has
  have hb := run_alone bs i hokb hbs
  rw [← hsame, ha] at hb
  exact ⟨Option.some.inj hb, ha⟩

/-- A chain of directories, each with one entry; every name but the dot leads one further. -/
def chain : FileSystem ℕ where
  root := 0
  enter d name := some (if name = ['.'] then d else d + 1)
  entries d := some [[Char.ofNat (97 + d)]]
  kind _ _ := some .other

/-- A message `cd d`. -/
def cdMessage : List Char := stamped "cd d".toList (List.replicate 23 '0')

theorem run_isolated_absolute :
    ∃ s t : Server (Fin 2) ℕ,
      exec (next chain) (start 0 "/a".toList) [(1, .cd cdMessage), (0, .list), (0, .proceed)] =
        some s ∧
      exec (next chain) (start 0 "/a".toList) [(0, .list), (0, .proceed)] = some t ∧
      s.session 0 = t.session 0 :=
  ⟨_, _, rfl, rfl, (run_isolated chain 0 "/a".toList 0
    [(1, .cd cdMessage), (0, .list), (0, .proceed)] [(0, .list), (0, .proceed)] _ _ rfl rfl
    (stepsMeet_of_forall (fun _ _ _ => .inl rfl) _) (stepsMeet_of_forall (fun _ _ _ => .inl rfl) _)
    rfl).1⟩

/-- Started with a relative path, a session lists another directory after somebody else's `cd`. -/
theorem relative_start_not_isolated :
    ¬ ∀ (as bs : List (Fin 2 × Operation)) (s t : Server (Fin 2) ℕ),
      exec (next chain) (start 0 "a".toList) as = some s →
      exec (next chain) (start 0 "a".toList) bs = some t →
      as.filterMap (operationOf 0) = bs.filterMap (operationOf 0) →
      s.session 0 = t.session 0 := by
  intro hall
  have h := hall [(1, .cd cdMessage), (0, .list)] [(0, .list)] _ _ rfl rfl rfl
  exact absurd h (by decide)

end Server

end OsispLabs.Lab8
