import OsispLabs.Lab8.Capacity
import OsispLabs.Lab8.Isolation
import Mathlib.Algebra.Group.Nat.Defs

/-!
# Path arithmetic of `cd`

`changeDirectory` decides by the first two characters of the argument, and moves up by cutting the
text of `dirPath`. In a file system without links this is compared with the directory to which the
components of the argument lead from the one that `dirPath` denotes.
-/
namespace OsispLabs.Lab8
open Lib FileSystem

variable {D : Type*}

/-- A component that is the name of an entry. -/
def Proper (name : List Char) : Prop := name ≠ ['.'] ∧ name ≠ ['.', '.']

/-- A file system without symbolic links: a tree of directories with `.` and `..`. -/
structure Tree (D : Type*) extends FileSystem D where
  parent : D → D
  parent_root : parent root = root
  enter_dot : ∀ d, enter d ['.'] = some d
  enter_dotDot : ∀ d, enter d ['.', '.'] = some (parent d)
  parent_of_enter : ∀ {d e name}, Proper name → enter d name = some e → parent e = d
  enter_ne_self : ∀ {d name}, Proper name → enter d name ≠ some d

section Text

variable {path name : List Char}

/-- What stands behind the last slash of a path. -/
def lastPiece (path : List Char) : List Char := (path.reverse.takeWhile (· ≠ '/')).reverse

theorem components_append (p q : List Char) :
    components (p ++ '/' :: q) = components p ++ components q := by
  simp [components, List.splitOn_append_cons_self]

@[simp] theorem components_nil : components [] = [] := by
  simp [components]

theorem components_cons (path : List Char) : components ('/' :: path) = components path := by
  simpa using components_append [] path

theorem components_name (h : '/' ∉ name) (hne : name ≠ []) : components name = [name] := by
  simp [components, List.splitOn_eq_singleton h, hne]

theorem reverse_append_slash (path name : List Char) :
    (path ++ '/' :: name).reverse = name.reverse ++ '/' :: path.reverse := by
  simp

theorem slash_notMem_iff : '/' ∉ name ↔ ∀ c ∈ name.reverse, decide (c ≠ '/') = true := by
  constructor
  · intro h c hc
    simp only [decide_eq_true_eq]
    rintro rfl
    exact h (List.mem_reverse.mp hc)
  · intro h hmem
    simpa using h '/' (List.mem_reverse.mpr hmem)

/-- Cutting takes off the last slash and what stands behind it. -/
theorem parentPath_append (path : List Char) (h : '/' ∉ name) :
    parentPath (path ++ '/' :: name) = path := by
  rw [parentPath, if_pos (by simp), reverse_append_slash,
    List.dropWhile_append_of_pos (slash_notMem_iff.mp h)]
  simp

theorem lastPiece_append (path : List Char) (h : '/' ∉ name) :
    lastPiece (path ++ '/' :: name) = name := by
  rw [lastPiece, reverse_append_slash, List.takeWhile_append_of_pos (slash_notMem_iff.mp h)]
  simp

/-- A path with a slash is what the cut leaves, the slash and the last piece. -/
theorem parentPath_append_lastPiece (h : '/' ∈ path) :
    '/' ∉ lastPiece path ∧ path = parentPath path ++ '/' :: lastPiece path := by
  obtain ⟨name, p, hrev, hname⟩ := List.eq_append_cons_of_mem (List.mem_reverse.mpr h)
  have hslash : '/' ∉ name.reverse := by simpa using hname
  have hpath : path = p.reverse ++ '/' :: name.reverse := by
    rw [← List.reverse_reverse path, hrev]
    simp
  rw [hpath, lastPiece_append _ hslash, parentPath_append _ hslash]
  exact ⟨hslash, rfl⟩

end Text

/-- `changeDirectory` as far as `dirPath` goes, in the working directory of the moment. The process
ends for want of an argument and at an absolute path. -/
def pathNext (fs : FileSystem D) (dirPath : List Char) (a : D × List Char) : Option (List Char) :=
  if a.2.length < 3 + stampLength ∨ starts "/" (argument a.2) = true then none
  else some (Dialogue.changeDirectory fs a.1 dirPath a.2).1

/-- If `chdir` succeeds, `dirPath` denotes from then on the directory to which the components of the
argument lead from the one it denoted. -/
def Follows (fs : FileSystem D) (dirPath : List Char) (a : D × List Char) (dirPath' : List Char) :
    Prop :=
  ∀ temp, tempPath dirPath (argument a.2) = some temp → (fs.resolve a.1 temp).isSome = true →
    fs.resolve a.1 dirPath' =
      (fs.resolve a.1 dirPath).bind fun d => fs.walk d (components (argument a.2))

/-- The directory of an absolute path. -/
def FileSystem.place (fs : FileSystem D) (path : List Char) : Option D :=
  fs.walk fs.root (components path)

def Absolute (path : List Char) : Prop := path.head? = some '/'

instance (path : List Char) : Decidable (Absolute path) := inferInstanceAs (Decidable (_ = _))

/-- Where a path without its last piece leads, seen from the directory `d` of the whole path; `e` is
the directory of the part in front of a last piece `..`. -/
def Tree.above (fs : Tree D) (piece : List Char) (d e : D) : D :=
  if piece = [] ∨ piece = ['.'] then d
  else if piece = ['.', '.'] then e
  else fs.parent d

/-- The arguments whose components lead where the text arithmetic does. Those that begin with `..`
have to lead to the parent directory, or to what the last piece of `dirPath` makes of it, the others
that begin with a dot back to where they start. -/
def Consistent (fs : Tree D) (dirPath newDir : List Char) : Prop :=
  if starts ".." newDir then
    parentPath dirPath ≠ [] → ∀ e ∈ fs.place (parentPath dirPath), ∃ d ∈ fs.place dirPath,
      fs.walk d (components newDir) = some (fs.above (lastPiece dirPath) d e)
  else if starts "." newDir then
    ∀ d ∈ fs.place dirPath, fs.walk d (components newDir) = some d
  else True

section Walk

variable {fs : FileSystem D} {path : List Char}

theorem walk_append (fs : FileSystem D) (d : D) (names names' : List (List Char)) :
    fs.walk d (names ++ names') = (fs.walk d names).bind fun e => fs.walk e names' := by
  simp [FileSystem.walk, List.foldlM_append]

theorem walk_singleton (fs : FileSystem D) (d : D) (name : List Char) :
    fs.walk d [name] = fs.enter d name := by
  simp [FileSystem.walk]

theorem place_append (fs : FileSystem D) (path rest : List Char) :
    fs.place (path ++ '/' :: rest) = (fs.place path).bind fun d => fs.walk d (components rest) := by
  rw [FileSystem.place, components_append, walk_append]
  rfl

theorem Absolute.resolve (h : Absolute path) (fs : FileSystem D) (cwd : D) :
    fs.resolve cwd path = fs.place path := by
  cases path with
  | nil => cases h
  | cons c path =>
    obtain rfl : c = '/' := Option.some.inj h
    rw [FileSystem.place, components_cons]
    rfl

theorem Absolute.append (h : Absolute path) (rest : List Char) : Absolute (path ++ rest) := by
  cases path with
  | nil => cases h
  | cons c path => exact h

theorem Absolute.slash_mem (h : Absolute path) : '/' ∈ path := List.mem_of_head? h

theorem Absolute.parentPath (h : Absolute path) (hne : parentPath path ≠ []) :
    Absolute (parentPath path) := by
  obtain ⟨rest, hrest⟩ := parentPath_isPrefix path
  cases hcut : Lab8.parentPath path with
  | nil => exact absurd hcut hne
  | cons c p =>
    rw [← hrest, hcut] at h
    exact h

theorem place_eq_lastPiece (h : Absolute path) (fs : FileSystem D) :
    fs.place path =
      (fs.place (Lab8.parentPath path)).bind fun e => fs.walk e (components (lastPiece path)) := by
  rw [← place_append, ← (parentPath_append_lastPiece h.slash_mem).2]

end Walk

section Step

variable {fs : Tree D} {dirPath dirPath' temp name : List Char} {a : D × List Char}

/-- The last piece of a path leads from `e` to `d`, so the cut leads from `d` to `e`. -/
theorem Tree.above_eq {d e : D} (hname : '/' ∉ name)
    (h : fs.walk e (components name) = some d) : fs.above name d e = e := by
  by_cases hempty : name = []
  · subst hempty
    rw [components_nil] at h
    obtain rfl : e = d := Option.some.inj h
    rfl
  · rw [components_name hname hempty, walk_singleton] at h
    by_cases hdot : name = ['.']
    · subst hdot
      obtain rfl : e = d := Option.some.inj ((fs.enter_dot e).symm.trans h)
      rfl
    · by_cases hdots : name = ['.', '.']
      · subst hdots
        rfl
      · simp only [above, hempty, hdot, hdots, or_self, if_false]
        exact fs.parent_of_enter ⟨hdot, hdots⟩ h

theorem pathNext_eq_some_iff {fs : FileSystem D} :
    pathNext fs dirPath a = some dirPath' ↔
      3 + stampLength ≤ a.2.length ∧ ∃ temp, tempPath dirPath (argument a.2) = some temp ∧
        dirPath' = if (fs.resolve a.1 temp).isSome = true then temp else dirPath := by
  rw [pathNext]
  by_cases hlen : a.2.length < 3 + stampLength
  · simp [hlen, Nat.not_le_of_lt hlen]
  · rw [and_iff_right (Nat.le_of_not_lt hlen)]
    by_cases hslash : starts "/" (argument a.2) = true
    · simp [hslash, tempPath]
    · obtain ⟨temp, htemp⟩ : ∃ temp, tempPath dirPath (argument a.2) = some temp := by
        rw [tempPath, if_neg hslash]
        split_ifs
        all_goals exact ⟨_, rfl⟩
      have hgo : ¬ (a.2.length < 3 + stampLength ∨ starts "/" (argument a.2) = true) := by
        rintro (h | h)
        · exact hlen h
        · exact hslash h
      rw [if_neg hgo, Dialogue.changeDirectory, change, if_neg hlen]
      simp only [htemp, Option.some_inj, exists_eq_left', @eq_comm _ dirPath']
      cases hd : fs.resolve a.1 temp <;> simp

/-- The session whose reply fits makes this step. -/
theorem pathNext_of_changeDirectory {fs : FileSystem D} {c c' : Session D} {cwd : D}
    {command : List Char} (h : (c.changeDirectory fs cwd command).2 = some c') :
    pathNext fs c.dirPath (cwd, command) = some c'.dirPath := by
  obtain ⟨hlen, temp, htemp, hc'⟩ := Session.changeDirectory_eq_some_iff.mp h
  refine pathNext_eq_some_iff.mpr ⟨hlen, temp, htemp, ?_⟩
  rcases hc' with ⟨d, hd, -, rfl⟩ | ⟨hnone, -, rfl⟩
  · rw [hd]
    rfl
  · rw [hnone]
    rfl

theorem follows_iff_of_temp {fs : FileSystem D}
    (htemp : tempPath dirPath (argument a.2) = some temp)
    (h : pathNext fs dirPath a = some dirPath') :
    Follows fs dirPath a dirPath' ↔ ((fs.resolve a.1 temp).isSome = true →
      fs.resolve a.1 temp =
        (fs.resolve a.1 dirPath).bind fun d => fs.walk d (components (argument a.2))) := by
  obtain ⟨-, temp', htemp', rfl⟩ := pathNext_eq_some_iff.mp h
  obtain rfl : temp = temp' := Option.some.inj (htemp.symm.trans htemp')
  constructor
  · intro hall hacc
    have hfollows := hall temp htemp hacc
    rwa [if_pos hacc] at hfollows
  · intro hall temp' htemp' hacc
    obtain rfl : temp = temp' := Option.some.inj (htemp.symm.trans htemp')
    rw [if_pos hacc]
    exact hall hacc

/-- What `chdir` accepts is absolute: the only other result of the cut is the empty path. -/
theorem tempPath_absolute {fs : FileSystem D} {cwd : D} {newDir : List Char}
    (hpath : Absolute dirPath) (htemp : tempPath dirPath newDir = some temp)
    (hacc : (fs.resolve cwd temp).isSome = true) : Absolute temp := by
  have hne : temp ≠ [] := by
    rintro rfl
    cases hacc
  rw [tempPath] at htemp
  split_ifs at htemp
  · cases htemp
    exact hpath.parentPath hne
  · cases htemp
    exact hpath
  · cases htemp
    exact hpath.append _

theorem pathNext_absolute {fs : FileSystem D} (hpath : Absolute dirPath)
    (h : pathNext fs dirPath a = some dirPath') : Absolute dirPath' := by
  obtain ⟨-, temp, htemp, rfl⟩ := pathNext_eq_some_iff.mp h
  split_ifs with hacc
  · exact tempPath_absolute hpath htemp hacc
  · exact hpath

theorem cut_follows_iff (hpath : Absolute dirPath) (names : List (List Char)) {e : D}
    (he : fs.place (parentPath dirPath) = some e) :
    some e = ((fs.place dirPath).bind fun d => fs.walk d names) ↔
      ∃ d ∈ fs.place dirPath,
        fs.walk d names = some (fs.above (lastPiece dirPath) d e) := by
  have hplace : fs.place dirPath = fs.walk e (components (lastPiece dirPath)) := by
    rw [place_eq_lastPiece hpath, he, Option.bind_some]
  have habove : ∀ d ∈ fs.place dirPath, fs.above (lastPiece dirPath) d e = e := by
    intro d hd
    exact Tree.above_eq (parentPath_append_lastPiece hpath.slash_mem).1 (hplace.symm.trans hd)
  rw [eq_comm, Option.bind_eq_some_iff]
  constructor
  · rintro ⟨d, hd, hwalk⟩
    exact ⟨d, hd, hwalk.trans (congrArg some (habove d hd).symm)⟩
  · rintro ⟨d, hd, hwalk⟩
    exact ⟨d, hd, hwalk.trans (congrArg some (habove d hd))⟩

theorem follows_iff_consistent (hpath : Absolute dirPath)
    (h : pathNext fs.toFileSystem dirPath a = some dirPath') :
    Follows fs.toFileSystem dirPath a dirPath' ↔ Consistent fs dirPath (argument a.2) := by
  obtain ⟨-, temp, htemp, -⟩ := pathNext_eq_some_iff.mp h
  rw [follows_iff_of_temp htemp h, hpath.resolve, Consistent]
  rw [tempPath] at htemp
  split_ifs at htemp ⊢ with hslash hdots hdot
  · obtain rfl := Option.some.inj htemp
    cases hcut : parentPath dirPath with
    | nil => simp [FileSystem.resolve]
    | cons c p =>
      have hne : parentPath dirPath ≠ [] := by simp [hcut]
      rw [← hcut, (hpath.parentPath hne).resolve, forall_prop_of_true hne]
      cases he : fs.place (parentPath dirPath) with
      | none => simp
      | some e => simpa using cut_follows_iff hpath (components (argument a.2)) he
  · obtain rfl := Option.some.inj htemp
    rw [hpath.resolve]
    cases fs.place dirPath with
    | none => simp
    | some d => simp [eq_comm]
  · obtain rfl := Option.some.inj htemp
    rw [(hpath.append _).resolve, place_append]
    simp

/-- A hidden name does not lead back to where it starts, but `cd` stays there. -/
theorem not_consistent_of_hidden {d : D} (hname : '/' ∉ name) (hdots : starts ".." name = false)
    (hdot : starts "." name = true) (hproper : Proper name) (hd : fs.place dirPath = some d) :
    ¬ Consistent fs dirPath name := by
  have hne : name ≠ [] := by
    rintro rfl
    cases hdot
  intro h
  simp only [Consistent, hdots, hdot, if_true, Bool.false_eq_true, if_false] at h
  have hback := h d hd
  rw [components_name hname hne, walk_singleton] at hback
  exact fs.enter_ne_self hproper hback

/-- A text that `changeDirectory` takes the argument `newDir` from. -/
def cdCommand (newDir : List Char) (timestamp : Timestamp) : List Char :=
  stamped ("cd ".toList ++ newDir) timestamp.chars

theorem argument_cdCommand (newDir : List Char) (timestamp : Timestamp) :
    argument (cdCommand newDir timestamp) = newDir :=
  take_drop_stamped _ timestamp 3

theorem cdCommand_length (newDir : List Char) (timestamp : Timestamp) :
    3 + stampLength ≤ (cdCommand newDir timestamp).length := by
  have hcd : "cd ".toList.length = 3 := rfl
  rw [cdCommand, stamped_length, List.length_append]
  omega

theorem tempPath_of_name (hname : '/' ∉ name) (hdot : starts "." name = false)
    (dirPath : List Char) : tempPath dirPath name = some (dirPath ++ '/' :: name) := by
  cases name with
  | nil => rfl
  | cons c name =>
    have hslash : c ≠ '/' := fun hc => hname (hc ▸ List.mem_cons_self)
    have hc : c ≠ '.' := by
      rintro rfl
      simp [starts] at hdot
    simp [tempPath, starts, hslash.symm, hc.symm]

/-- `cd x` into an entry `x` of the directory, then `cd ..`: the same path again. -/
theorem exec_cd_back {fs : FileSystem D} {d e : D} (hpath : Absolute dirPath) (hname : '/' ∉ name)
    (hne : name ≠ []) (hdot : starts "." name = false) (hd : fs.place dirPath = some d)
    (he : fs.enter d name = some e) (cwd cwd' : D) (timestamp timestamp' : Timestamp) :
    exec (pathNext fs) dirPath [(cwd, cdCommand name timestamp),
      (cwd', cdCommand "..".toList timestamp')] = some dirPath := by
  have hdown : pathNext fs dirPath (cwd, cdCommand name timestamp) =
      some (dirPath ++ '/' :: name) := by
    have hplace : fs.place (dirPath ++ '/' :: name) = some e := by
      rw [place_append, hd, Option.bind_some, components_name hname hne, walk_singleton, he]
    have hlen := cdCommand_length name timestamp
    refine pathNext_eq_some_iff.mpr ⟨hlen, dirPath ++ '/' :: name, ?_, ?_⟩
    · rw [argument_cdCommand]
      exact tempPath_of_name hname hdot dirPath
    · rw [(hpath.append _).resolve, hplace]
      rfl
  have hup : pathNext fs (dirPath ++ '/' :: name) (cwd', cdCommand "..".toList timestamp') =
      some dirPath := by
    refine pathNext_eq_some_iff.mpr ⟨cdCommand_length _ timestamp', dirPath, ?_, ?_⟩
    · rw [argument_cdCommand]
      exact congrArg some (parentPath_append dirPath hname)
    · rw [hpath.resolve, hd]
      rfl
  rw [exec_cons, hdown, Option.bind_some, exec_cons, hup]
  rfl

end Step

section Runs

variable {fs : Tree D} {path : List Char}

/-- In every run of `cd` commands from an absolute path, each accepted one moves to the directory
that its argument names exactly as long as the arguments are consistent. -/
theorem everyStep_follows_iff {as : List (D × List Char)} {last : List Char}
    (hpath : Absolute path) (hrun : exec (pathNext fs.toFileSystem) path as = some last) :
    EveryStep (pathNext fs.toFileSystem) (Follows fs.toFileSystem) path as ↔
      StepsMeet (pathNext fs.toFileSystem) (fun p a => Consistent fs p (argument a.2)) path as := by
  apply everyStep_iff_stepsMeet (I := Absolute) _ _ hpath hrun
  · exact fun p a q hp _ h => pathNext_absolute hp h
  · exact fun p a q hp h => follows_iff_consistent hp h

/-- The root and one directory in it, `.git`. -/
def gitTree : Tree Bool where
  root := false
  enter d name :=
    if name = ['.'] then some d
    else if name = ['.', '.'] then some false
    else if d = false ∧ name = ".git".toList then some true
    else none
  entries _ := some []
  kind _ _ := none
  parent _ := false
  parent_root := rfl
  enter_dot d := rfl
  enter_dotDot d := rfl
  parent_of_enter := by
    rintro d e name ⟨hdot, hdots⟩ h
    rw [if_neg hdot, if_neg hdots] at h
    exact (Option.ite_none_right_eq_some.mp h).1.1.symm
  enter_ne_self := by
    rintro d name ⟨hdot, hdots⟩ h
    rw [if_neg hdot, if_neg hdots] at h
    obtain ⟨⟨rfl, -⟩, h⟩ := Option.ite_none_right_eq_some.mp h
    cases h

/-- The client's first `cd`, whose argument arrives empty, and `cd ..`. -/
def firstCommands : List (Bool × List Char) :=
  [(false, cdCommand [] noon), (false, cdCommand "..".toList noon)]

theorem everyStep_follows_iff_firstCommands :
    exec (pathNext gitTree.toFileSystem) ['/'] firstCommands = some ['/'] ∧
    (EveryStep (pathNext gitTree.toFileSystem) (Follows gitTree.toFileSystem) ['/'] firstCommands ↔
      StepsMeet (pathNext gitTree.toFileSystem)
        (fun p a => Consistent gitTree p (argument a.2)) ['/'] firstCommands) := by
  have hrun : exec (pathNext gitTree.toFileSystem) ['/'] firstCommands = some ['/'] := by
    decide +kernel
  exact ⟨hrun, everyStep_follows_iff (by decide) hrun⟩

/-- In `/`, `cd .git` succeeds and stays. -/
theorem cdGit_not_follows :
    pathNext gitTree.toFileSystem ['/'] (false, cdCommand ".git".toList noon) = some ['/'] ∧
    ¬ EveryStep (pathNext gitTree.toFileSystem) (Follows gitTree.toFileSystem) ['/']
      [(false, cdCommand ".git".toList noon)] := by
  have hnext : pathNext gitTree.toFileSystem ['/'] (false, cdCommand ".git".toList noon) =
      some ['/'] := by
    decide +kernel
  refine ⟨hnext, fun h => ?_⟩
  have hfollows := ((everyStep_cons hnext).mp h).1 ['/'] rfl rfl
  exact absurd hfollows (by decide +kernel)

end Runs

end OsispLabs.Lab8
