import OsispLabs.Lab2.Environment
import OsispLabs.Lib.Keyed
import Mathlib.Data.Char
import Mathlib.Data.List.Lex
import Mathlib.Data.List.Sort
import Mathlib.Data.List.TakeWhile

/-!
# From the parent's environment to the child's output

`lab2.c` sorts its environment and gives each child an array of its own, with nine variables looked
up by `getenv`. A variable that is not set puts a `NULL` into that array, which ends it there: the
children get the variables in front of the first one that is not set.
-/
namespace OsispLabs.Lab2
open Lib

/-- A string literal. -/
def literal (s : String) : Text := ⟨s.toList.filter (· ≠ '\x00'), by simp⟩

/-- `strcat` onto a copy. -/
def concat (str1 str2 : Text) : Text := ⟨str1.chars ++ str2.chars, by
  rw [List.mem_append, not_or]
  exact ⟨str1.noNul, str2.noNul⟩⟩

/-- `addStrAndStr`, in a block of 500 bytes. -/
def addStrAndStr (str1 : Text) : Option Text → Option (Option Text)
  | none => some none
  | some str2 =>
    if str1.length + str2.length < 500 then some (some (concat str1 str2)) else none

/-- `addStrAndNumb`, in a block of nine bytes; `snprintf` keeps three digits of `%02d`. -/
def addStrAndNumb (str : Text) (numb : ℕ) : Option (List Char) :=
  let digits := Nat.toDigits 10 numb
  let buffer := (if digits.length < 2 then '0' :: digits else digits).take 3
  if str.length + buffer.length < 9 then some (str.chars ++ buffer) else none

/-- What `getenv` returns, as a string. -/
def getenvText (environ : List Text) (name : Text) : Option Text :=
  (environ.find? (assigns name)).bind fun entry => entry.suffix (name.length + 1)

/-- `setenv` with overwriting: the first entry of the name is replaced, or one is appended. -/
def setenv (environ : List Text) (name value : Text) : List Text :=
  replaceFirst (assigns name) (concat (concat name (literal "=")) value) environ

/-- `compare_strings`: whether the first argument may stand before the second. -/
def compareStrings (a b : Text) : Bool := decide (a.chars ≤ b.chars)

/-- `environ` after `setenv` and `qsort`. -/
def sortedEnviron (envp : List Text) : List Text :=
  (setenv envp (literal "LC_COLLATE") (literal "C")).mergeSort compareStrings

/-- `envp` after them: `setenv` replaces in the same array, but appends to a new one. -/
def envpAfter (envp : List Text) : List Text :=
  if envp.any (assigns (literal "LC_COLLATE")) then sortedEnviron envp else envp

/-- The variables of `childEnv`. -/
def childVariables : List Text :=
  ["SHELL", "HOME", "HOSTNAME", "LOGNAME", "LANG", "TERM", "USER", "LC_COLLATE", "PATH"].map literal

/-- An element of `childEnv`. -/
def childEntry (environ : List Text) (name : Text) : Option (Option Text) :=
  addStrAndStr (concat name (literal "=")) (getenvText environ name)

/-- `childEnv` as `execve` takes it, up to its first `NULL`. -/
def childEnv (environ : List Text) : Option (List Text) :=
  (childVariables.mapM (childEntry environ)).map fun entries =>
    (entries.takeWhile Option.isSome).filterMap id

/-- A child: its `args`, the path it is executed from, and its environment. -/
structure Child where
  name : List Char
  symbol : Char
  path : Option (List Char)
  environ : List Text

/-- What `childProgramm.c` prints for the words of its file; with no path it is not executed. -/
def Child.output (c : Child) (words : List Text) : Option (List Char) :=
  match c.path with
  | some _ => outputEnv words c.environ c.environ c.symbol
  | none => some []

/-- `callChild` -/
def callChild (path : Option (List Char)) (childCount : ℕ) (childEnv : List Text) (inpChar : Char) :
    Option Child :=
  (addStrAndNumb (literal "child_") childCount).map fun name => ⟨name, inpChar, path, childEnv⟩

/-- The lookup of `CHILD_PATH` for a symbol of the menu. -/
def childPath (envp : List Text) : Char → Option (Option (List Char))
  | '+' => some (getenv (sortedEnviron envp) (literal "CHILD_PATH"))
  | '*' => parsEnvText (envpAfter envp) (literal "CHILD_PATH")
  | '&' => parsEnvText (sortedEnviron envp) (literal "CHILD_PATH")
  | _ => none

/-- The menu loop of `main` with its counter. -/
def menu (envp env : List Text) : ℕ → List Char → Option (List Child)
  | _, [] => some []
  | count, symbol :: symbols =>
    if symbol = 'q' then some []
    else if symbol ∈ ['+', '*', '&'] then
      (childPath envp symbol).bind fun path =>
        (callChild path (count + 1) env symbol).bind fun child =>
          (menu envp env (count + 1) symbols).map (child :: ·)
    else menu envp env count symbols

/-- `main` -/
def main (envp : List Text) (symbols : List Char) : Option (List Child) :=
  (childEnv (sortedEnviron envp)).bind fun env => menu envp env 0 symbols

/-- The name that an entry defines, if it has the form `name=value`. -/
def entryName (entry : Text) : Option (List Char) :=
  if '=' ∈ entry.chars then some (entry.chars.takeWhile (· ≠ '=')) else none

/-- No name is defined twice. -/
def Unambiguous (environ : List Text) : Prop := (environ.filterMap entryName).Nodup

/-- The value of a variable once `main` has set `LC_COLLATE`. -/
def parentValue (envp : List Text) (name : Text) : Option (List Char) :=
  if name.chars = "LC_COLLATE".toList then some ['C'] else getenv envp name

/-- The variables in front of the first one that is not set. -/
def inherited (envp : List Text) : List Text :=
  childVariables.takeWhile fun name => (parentValue envp name).isSome

/-- The value that a child finds for a name. -/
def childValue (envp : List Text) (name : Text) : Option (List Char) :=
  if name.chars ∈ (inherited envp).map CString.chars then parentValue envp name else none

/-- The symbols for which a child is called. -/
def launches (symbols : List Char) : List Char :=
  (symbols.takeWhile (· ≠ 'q')).filter (· ∈ ['+', '*', '&'])

instance (environ : List Text) : Decidable (Unambiguous environ) :=
  inferInstanceAs (Decidable (List.Nodup _))

section Lookup

variable {name entry value : Text} {environ environ' : List Text}

theorem text_ext {a b : Text} (h : a.chars = b.chars) : a = b := by
  cases a
  cases b
  obtain rfl := h
  rfl

theorem assigns_iff (hname : '=' ∉ name.chars) :
    assigns name entry = true ↔ entryName entry = some name.chars := by
  have hkeep : ∀ c ∈ name.chars, decide (c ≠ '=') = true := fun c hc =>
    decide_eq_true fun h => hname (h ▸ hc)
  rw [assigns, List.isPrefixOf_iff_prefix, entryName]
  constructor
  · rintro ⟨rest, hrest⟩
    rw [List.append_assoc] at hrest
    have hmem : '=' ∈ entry.chars := by simp [← hrest]
    rw [if_pos hmem, ← hrest, List.takeWhile_append_of_pos hkeep]
    simp
  · intro h
    split_ifs at h with hmem
    have hsplit := List.takeWhile_append_dropWhile (p := (· ≠ '=')) (l := entry.chars)
    rw [Option.some.inj h] at hsplit
    cases hdrop : entry.chars.dropWhile (· ≠ '=') with
    | nil =>
      rw [hdrop, List.append_nil] at hsplit
      exact absurd (hsplit ▸ hmem) hname
    | cons c rest =>
      have hhead : c = '=' := by
        have hne := List.head_dropWhile_not (· ≠ '=') (l := entry.chars)
          (hdrop ▸ List.cons_ne_nil c rest)
        simpa only [hdrop, List.head_cons, decide_eq_false_iff_not, ne_eq, not_not] using hne
      exact ⟨rest, by rw [← hsplit, hdrop, hhead, List.append_assoc]; rfl⟩

theorem assigns_eq (hname : '=' ∉ name.chars) :
    assigns name = fun entry => decide (entryName entry = some name.chars) :=
  funext fun entry => by rw [Bool.eq_iff_iff, assigns_iff hname, decide_eq_true_iff]

theorem getenv_eq (environ : List Text) (name : Text) :
    getenv environ name =
      (environ.find? (assigns name)).map fun entry => entry.chars.drop (name.length + 1) := rfl

theorem getenvText_chars (environ : List Text) (name : Text) :
    (getenvText environ name).map CString.chars = getenv environ name := by
  rw [getenvText, getenv_eq]
  cases hfind : environ.find? (assigns name) with
  | none => rfl
  | some entry =>
    have htest : assigns name entry = true := List.find?_some hfind
    have hlen : name.length + 1 ≤ entry.length := by
      simpa [CString.length] using (List.isPrefixOf_iff_prefix.mp htest).length_le
    rw [Option.bind_some, Option.map_some, CString.suffix_of_le hlen]

theorem entryName_assignment (hname : '=' ∉ name.chars) (value : Text) :
    entryName (concat (concat name (literal "=")) value) = some name.chars := by
  rw [← assigns_iff hname, assigns, List.isPrefixOf_iff_prefix]
  exact ⟨value.chars, rfl⟩

/-- The order of an unambiguous environment does not matter. -/
theorem getenv_perm (hkeys : Unambiguous environ) (hp : environ.Perm environ')
    (hname : '=' ∉ name.chars) : getenv environ' name = getenv environ name := by
  rw [getenv_eq, getenv_eq, assigns_eq hname, find_key_perm hp hkeys]

theorem setenv_unambiguous (hkeys : Unambiguous environ) (hname : '=' ∉ name.chars) :
    Unambiguous (setenv environ name value) := by
  rw [Unambiguous, setenv, assigns_eq hname]
  exact nodup_replaceFirst (entryName_assignment hname value) hkeys

theorem getenv_setenv_same (environ : List Text) (name value : Text) :
    getenv (setenv environ name value) name = some value.chars := by
  have hself : assigns name (concat (concat name (literal "=")) value) = true :=
    List.isPrefixOf_iff_prefix.mpr ⟨value.chars, rfl⟩
  rw [getenv_eq, setenv, find_replaceFirst_same hself, Option.map_some]
  simp [concat, literal, CString.length, List.drop_append]

theorem getenv_setenv_other {other : Text} (hname : '=' ∉ name.chars) (hother : '=' ∉ other.chars)
    (hne : other.chars ≠ name.chars) :
    getenv (setenv environ name value) other = getenv environ other := by
  have hdiff : ∀ entry, entryName entry = some name.chars → assigns other entry = false := by
    intro entry h
    rw [← Bool.not_eq_true, assigns_iff hother, h, Option.some_inj]
    exact fun h => hne h.symm
  rw [getenv_eq, getenv_eq, setenv,
    find_replaceFirst_other (hdiff _ (entryName_assignment hname value))
      fun entry h => hdiff entry ((assigns_iff hname).mp h)]

/-- The environment that the parent works with has the values it was started with, and `C` for
`LC_COLLATE`. -/
theorem getenv_sortedEnviron {envp : List Text} (hkeys : Unambiguous envp)
    (hname : '=' ∉ name.chars) : getenv (sortedEnviron envp) name = parentValue envp name := by
  have hcollate : '=' ∉ (literal "LC_COLLATE").chars := by decide
  rw [sortedEnviron, getenv_perm (setenv_unambiguous hkeys hcollate)
    (List.mergeSort_perm _ _).symm hname, parentValue]
  split_ifs with h
  · obtain rfl : name = literal "LC_COLLATE" := text_ext h
    exact getenv_setenv_same envp _ _
  · exact getenv_setenv_other hcollate hname h

end Lookup

section ChildEnv

variable {environ envp : List Text} {name : Text}

theorem mapM_eq_some_map {α β : Type*} {f : α → Option β} {g : α → β} {l : List α}
    (h : ∀ x ∈ l, f x = some (g x)) : l.mapM f = some (l.map g) := by
  induction l with
  | nil => rfl
  | cons x l ih =>
    rw [List.mapM_cons, h x List.mem_cons_self, ih fun y hy => h y (List.mem_cons_of_mem x hy)]
    rfl

/-- The entry for a variable, if it is set. -/
def assignment (environ : List Text) (name : Text) : Option Text :=
  (getenvText environ name).map (concat (concat name (literal "=")))

theorem childEntry_eq
    (hfits : ∀ value, getenv environ name = some value → name.length + 1 + value.length < 500) :
    childEntry environ name = some (assignment environ name) := by
  have hchars := getenvText_chars environ name
  rw [childEntry, assignment]
  cases htext : getenvText environ name with
  | none => rfl
  | some value =>
    rw [htext, Option.map_some] at hchars
    have hlen := hfits value.chars hchars.symm
    have hsum : (concat name (literal "=")).length + value.length < 500 := by
      simpa [concat, literal, CString.length] using hlen
    rw [addStrAndStr, if_pos hsum, Option.map_some]

theorem assignment_isSome : (assignment environ name).isSome = (getenv environ name).isSome := by
  rw [assignment, ← getenvText_chars, Option.isSome_map, Option.isSome_map]

theorem assigns_assignment {name' entry : Text} (hname : '=' ∉ name.chars)
    (hname' : '=' ∉ name'.chars) (h : assignment environ name' = some entry) :
    assigns name entry = true ↔ name'.chars = name.chars := by
  obtain ⟨value, -, rfl⟩ := Option.map_eq_some_iff.mp h
  rw [assigns_iff hname, entryName_assignment hname', Option.some_inj]

/-- A lookup among the assignments of set variables. -/
theorem getenv_assignments (hname : '=' ∉ name.chars) {names : List Text}
    (hnames : ∀ name' ∈ names, '=' ∉ name'.chars ∧ (getenv environ name').isSome) :
    getenv (names.filterMap (assignment environ)) name =
      if name.chars ∈ names.map CString.chars then getenv environ name else none := by
  induction names with
  | nil => rfl
  | cons name' names ih =>
    obtain ⟨hname', hset⟩ := hnames name' List.mem_cons_self
    have hrest := ih fun n hn => hnames n (List.mem_cons_of_mem _ hn)
    rw [← assignment_isSome] at hset
    obtain ⟨entry, hentry⟩ := Option.isSome_iff_exists.mp hset
    have htest := assigns_assignment hname hname' hentry
    rw [List.filterMap_cons_some hentry, getenv_eq, List.find?_cons, List.map_cons]
    by_cases heq : name'.chars = name.chars
    · obtain rfl := text_ext heq
      have hchars := getenvText_chars environ name'
      obtain ⟨value, hvalue, rfl⟩ := Option.map_eq_some_iff.mp hentry
      rw [htest.mpr rfl, if_pos List.mem_cons_self, ← hchars, hvalue]
      simp [concat, literal, CString.length, List.drop_append]
    · have hmiss : assigns name entry = false := by
        rw [← Bool.not_eq_true, htest]
        exact heq
      have hmem : name.chars ∈ name'.chars :: names.map CString.chars ↔
          name.chars ∈ names.map CString.chars := by
        rw [List.mem_cons, or_iff_right fun h => heq h.symm]
      rw [hmiss, ← getenv_eq, hrest]
      simp only [hmem]

theorem childVariables_noEquals : ∀ name ∈ childVariables, '=' ∉ name.chars := by decide

/-- The array ends at the first variable that is not set. -/
theorem childEnv_eq (hfits : ∀ name ∈ childVariables, ∀ value, getenv environ name = some value →
      name.length + 1 + value.length < 500) :
    childEnv environ = some ((childVariables.takeWhile fun name => (getenv environ name).isSome)
      |>.filterMap (assignment environ)) := by
  have hentries := mapM_eq_some_map (f := childEntry environ) (g := assignment environ)
    fun name hname => childEntry_eq (hfits name hname)
  have hset : Option.isSome ∘ assignment environ = fun name => (getenv environ name).isSome :=
    funext fun _ => assignment_isSome
  rw [childEnv, hentries, Option.map_some, List.takeWhile_map, hset, List.filterMap_map]
  rfl

theorem inherited_eq (hkeys : Unambiguous envp) :
    (childVariables.takeWhile fun name => (getenv (sortedEnviron envp) name).isSome) =
      inherited envp := by
  have hcongr : ∀ names : List Text, (∀ name ∈ names, '=' ∉ name.chars) →
      (names.takeWhile fun name => (getenv (sortedEnviron envp) name).isSome) =
        names.takeWhile fun name => (parentValue envp name).isSome := by
    intro names
    induction names with
    | nil => exact fun _ => rfl
    | cons name names ih =>
      intro hnames
      rw [List.takeWhile_cons, List.takeWhile_cons,
        getenv_sortedEnviron hkeys (hnames name List.mem_cons_self),
        ih fun n hn => hnames n (List.mem_cons_of_mem name hn)]
  exact hcongr childVariables childVariables_noEquals

/-- What a child's lookup gives, in terms of the environment that the parent was started with. -/
theorem getenv_childEnv (hkeys : Unambiguous envp)
    (hfits : ∀ name ∈ childVariables, ∀ value ∈ parentValue envp name,
      name.length + 1 + value.length < 500) :
    ∃ env, childEnv (sortedEnviron envp) = some env ∧
      ∀ name : Name, getenv env name.text = childValue envp name.text := by
  have hparent : ∀ name ∈ childVariables,
      getenv (sortedEnviron envp) name = parentValue envp name := fun name hname =>
    getenv_sortedEnviron hkeys (childVariables_noEquals name hname)
  refine ⟨_, childEnv_eq fun name hname value h => hfits name hname value ?_, fun name => ?_⟩
  · rw [← hparent name hname, h]
    exact rfl
  · have hset : ∀ n ∈ inherited envp, '=' ∉ n.chars ∧ (getenv (sortedEnviron envp) n).isSome := by
      intro n hn
      have hmem := (List.takeWhile_subset _) hn
      rw [hparent n hmem]
      have hisSome := List.mem_takeWhile_imp (p := fun n => (parentValue envp n).isSome) hn
      exact ⟨childVariables_noEquals n hmem, hisSome⟩
    rw [inherited_eq hkeys, getenv_assignments name.noEquals hset, childValue,
      getenv_sortedEnviron hkeys name.noEquals]

end ChildEnv

section Menu

variable {envp env : List Text}

theorem printValues_eq_some {lookup : Text → Option (Option (List Char))}
    {value : Text → Option (List Char)} {names : List Name}
    (hlookup : ∀ name : Name, lookup name.text = some (value name.text))
    (hshort : ∀ name ∈ names, name.text.length < bufferSize) :
    printValues lookup (names.map Name.text) =
      some (names.flatMap fun name => printValue name.text (value name.text)) := by
  induction names with
  | nil => rfl
  | cons name names ih =>
    have hname := hshort name List.mem_cons_self
    rw [List.map_cons, printValues, if_neg (by omega), hlookup name, Option.bind_some,
      ih fun n hn => hshort n (List.mem_cons_of_mem name hn), Option.map_some, List.flatMap_cons]

/-- The three modes of `outputEnv` print the same values. -/
theorem outputEnv_eq {symbol : Char} (hsymbol : symbol ∈ ['+', '*', '&']) {names : List Name}
    (hshort : ∀ name ∈ names, name.text.length < bufferSize) :
    outputEnv (names.map Name.text) env env symbol =
      some (names.flatMap fun name => printValue name.text (getenv env name.text)) := by
  have hmode : symbol = '+' ∨ symbol = '*' ∨ symbol = '&' := by simpa using hsymbol
  rcases hmode with rfl | rfl | rfl
  · exact printValues_eq_some (fun _ => rfl) hshort
  · exact printValues_eq_some (parsEnvText_eq env) hshort
  · exact printValues_eq_some (parsEnvText_eq env) hshort

/-- All three symbols find the path that the parent was started with. -/
theorem childPath_eq (hkeys : Unambiguous envp) {symbol : Char}
    (hsymbol : symbol ∈ ['+', '*', '&']) :
    childPath envp symbol = some (getenv envp (literal "CHILD_PATH")) := by
  obtain ⟨name, hname⟩ : ∃ name : Name, name.text = literal "CHILD_PATH" :=
    ⟨⟨literal "CHILD_PATH", by decide, by decide⟩, rfl⟩
  unfold childPath
  rw [← hname]
  have hother : name.chars ≠ "LC_COLLATE".toList := by
    have hchars : name.chars = (literal "CHILD_PATH").chars := congrArg CString.chars hname
    rw [hchars]
    decide
  have hsorted : getenv (sortedEnviron envp) name.text = getenv envp name.text := by
    rw [getenv_sortedEnviron hkeys name.noEquals, parentValue, if_neg hother]
  have hafter : getenv (envpAfter envp) name.text = getenv envp name.text := by
    unfold envpAfter
    split_ifs
    · exact hsorted
    · rfl
  have hmode : symbol = '+' ∨ symbol = '*' ∨ symbol = '&' := by simpa using hsymbol
  rcases hmode with rfl | rfl | rfl
  · exact congrArg some hsorted
  · exact (parsEnvText_eq _ name).trans (congrArg some hafter)
  · exact (parsEnvText_eq _ name).trans (congrArg some hsorted)

/-- The names of the first ninety-nine children fit. -/
theorem addStrAndNumb_isSome :
    ∀ numb < 100, (addStrAndNumb (literal "child_") numb).isSome := by decide

theorem launches_cons_of_mem {symbol : Char} (hquit : symbol ≠ 'q')
    (hcall : symbol ∈ ['+', '*', '&']) (symbols : List Char) :
    launches (symbol :: symbols) = symbol :: launches symbols := by
  rw [launches, List.takeWhile_cons_of_pos (by simpa using hquit),
    List.filter_cons_of_pos (by simpa using hcall), launches]

theorem launches_cons_of_notMem {symbol : Char} (hquit : symbol ≠ 'q')
    (hcall : symbol ∉ ['+', '*', '&']) (symbols : List Char) :
    launches (symbol :: symbols) = launches symbols := by
  rw [launches, List.takeWhile_cons_of_pos (by simpa using hquit),
    List.filter_cons_of_neg (by simpa using hcall), launches]

theorem menu_eq (env : List Text) (hkeys : Unambiguous envp) (count : ℕ) {symbols : List Char}
    (hcount : count + (launches symbols).length < 100) :
    ∃ children, menu envp env count symbols = some children ∧
      children.map Child.symbol = launches symbols ∧
      ∀ child ∈ children,
        child.path = getenv envp (literal "CHILD_PATH") ∧ child.environ = env := by
  induction symbols generalizing count with
  | nil => exact ⟨[], rfl, rfl, nofun⟩
  | cons symbol symbols ih =>
    by_cases hquit : symbol = 'q'
    · exact ⟨[], by rw [menu, if_pos hquit], by simp [launches, hquit], nofun⟩
    · by_cases hcall : symbol ∈ ['+', '*', '&']
      · have hmore := launches_cons_of_mem hquit hcall symbols
        rw [hmore, List.length_cons] at hcount
        obtain ⟨children, hrun, hsymbols, hall⟩ := ih (count + 1) (by omega)
        obtain ⟨name, hname⟩ := Option.isSome_iff_exists.mp
          (addStrAndNumb_isSome (count + 1) (by omega))
        refine ⟨⟨name, symbol, getenv envp (literal "CHILD_PATH"), env⟩ :: children, ?_, ?_, ?_⟩
        · rw [menu, if_neg hquit, if_pos hcall, childPath_eq hkeys hcall, Option.bind_some,
            callChild, hname, Option.map_some, Option.bind_some, hrun, Option.map_some]
        · rw [List.map_cons, hsymbols, hmore]
        · intro child hchild
          rcases List.mem_cons.mp hchild with rfl | hchild
          · exact ⟨rfl, rfl⟩
          · exact hall child hchild
      · rw [launches_cons_of_notMem hquit hcall] at hcount ⊢
        rw [menu, if_neg hquit, if_neg hcall]
        exact ih count hcount

end Menu

/-- Whatever is typed, up to ninety-nine children are called, one for each symbol, and all of them
print for each word the value of the parent's variable if it and the variables in front of it are
set, and `(null)` otherwise. -/
theorem main_children (envp : List Text) (symbols : List Char) (hkeys : Unambiguous envp)
    (hfits : ∀ name ∈ childVariables, ∀ value ∈ parentValue envp name,
      name.length + 1 + value.length < 500)
    (hcount : (launches symbols).length < 100) :
    ∃ children, main envp symbols = some children ∧
      children.map Child.symbol = launches symbols ∧
      ∀ child ∈ children, ∀ names : List Name, (∀ name ∈ names, name.text.length < bufferSize) →
        child.output (names.map Name.text) =
          some (if (getenv envp (literal "CHILD_PATH")).isSome then
            names.flatMap fun name => printValue name.text (childValue envp name.text)
          else []) := by
  obtain ⟨env, henv, hvalues⟩ := getenv_childEnv hkeys hfits
  obtain ⟨children, hrun, hsymbols, hall⟩ :=
    menu_eq env hkeys 0 (by omega : 0 + (launches symbols).length < 100)
  refine ⟨children, by rw [main, henv, Option.bind_some, hrun], hsymbols, ?_⟩
  intro child hchild names hshort
  obtain ⟨hpath, hchildEnv⟩ := hall child hchild
  have hsymbol : child.symbol ∈ ['+', '*', '&'] := by
    have hmem : child.symbol ∈ launches symbols := hsymbols ▸ List.mem_map_of_mem hchild
    simpa using (List.mem_filter.mp hmem).2
  rw [Child.output, hpath, hchildEnv]
  cases getenv envp (literal "CHILD_PATH") with
  | none => rfl
  | some path =>
    rw [outputEnv_eq hsymbol hshort]
    simp only [hvalues, Option.isSome_some, if_true]

/-- An environment in which `HOSTNAME` is not set. -/
def shortEnviron : List Text :=
  ["PATH=/bin", "SHELL=sh", "HOME=/root", "CHILD_PATH=./child", "USER=root"].map literal

/-- The children find `SHELL` and `HOME`, but neither `USER` nor `PATH`. -/
theorem main_children_shortEnviron :
    (inherited shortEnviron).map CString.chars = ["SHELL".toList, "HOME".toList] ∧
      ∃ children, main shortEnviron ['+', 'x', '&', 'q', '*'] = some children ∧
        children.map Child.symbol = ['+', '&'] ∧
        ∀ child ∈ children, ∀ names : List Name, (∀ name ∈ names, name.text.length < bufferSize) →
          child.output (names.map Name.text) =
            some (names.flatMap fun name =>
              printValue name.text (childValue shortEnviron name.text)) :=
  ⟨by decide, main_children shortEnviron ['+', 'x', '&', 'q', '*'] (by decide) (by decide)
    (by decide)⟩

end OsispLabs.Lab2
