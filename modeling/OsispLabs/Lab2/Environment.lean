import OsispLabs.Lib.CString

/-!
# Environment lookup

`parsEnv` and the three lookup modes of `outputEnv`. An environment array is the list of its
entries in front of the `NULL`. An outer `none` stands for undefined behaviour, such as a read
past a terminator.
-/
namespace OsispLabs.Lab2
open Lib

abbrev Text := CString '\x00'

/-- The pointers that `parsEnv` returns: an entry of the array and an offset in it. -/
structure Position where
  entry : ℕ
  offset : ℕ
  deriving DecidableEq, Repr

/-- The `for` loop of `parsEnv` from `i` on; the offset in the entry that it returns, if any. -/
def scanEntry (name entry : Text) (i : ℕ) : Option (Option ℕ) :=
  match hname : name.read i with
  | none => none
  | some c =>
    if hc : c = '\x00' then some none
    else (entry.read i).bind fun e =>
      if e = '=' then some none
      else if e = '\x00' then some none
      else if c ≠ e then some none
      else (name.read (i + 1)).bind fun c' =>
        if c' = '\x00' then
          (entry.read (i + 1)).bind fun e' =>
            if e' = '=' then some (some (i + 2)) else scanEntry name entry (i + 1)
        else scanEntry name entry (i + 1)
termination_by name.length - i
decreasing_by all_goals exact Nat.sub_succ_lt_self _ _ (CString.lt_of_read hname hc)

/-- The `while` loop of `parsEnv` at entry `k`. -/
def scanEnviron (name : Text) : ℕ → List Text → Option (Option Position)
  | _, [] => some none
  | k, entry :: env => (scanEntry name entry 0).bind fun
    | some offset => some (some ⟨k, offset⟩)
    | none => scanEnviron name (k + 1) env

def parsEnv (environ : List Text) (name : Text) : Option (Option Position) :=
  scanEnviron name 0 environ

/-- The string at a position. -/
def textAt (environ : List Text) (p : Position) : Option (List Char) :=
  (environ[p.entry]?).bind fun entry => (entry.suffix p.offset).map CString.chars

/-- The entry starts with the name and `=`. -/
def assigns (name entry : Text) : Bool := (name.chars ++ ['=']).isPrefixOf entry.chars

/-- `getenv` of the C library: the rest of the first entry for the name. -/
def getenv (environ : List Text) (name : Text) : Option (List Char) :=
  (environ.find? (assigns name)).map fun entry => entry.chars.drop (name.length + 1)

/-- `parsEnv`, read as a string. -/
def parsEnvText (environ : List Text) (name : Text) : Option (Option (List Char)) :=
  (parsEnv environ name).bind fun
    | none => some none
    | some p => (textAt environ p).map some

/-- `printf("\n%s=%s", buffer, value)`, where a `NULL` value is shown as `(null)`. -/
def printValue (buffer : Text) (value : Option (List Char)) : List Char :=
  '\n' :: buffer.chars ++ '=' :: value.getD "(null)".toList

/-- `malloc(sizeof(char) * 40)` -/
abbrev bufferSize : ℕ := 40

/-- A `while` loop of `outputEnv` over the words that `fscanf` finds. -/
def printValues (lookup : Text → Option (Option (List Char))) : List Text → Option (List Char)
  | [] => some []
  | buffer :: words =>
    if bufferSize ≤ buffer.length then none
    else (lookup buffer).bind fun value =>
      (printValues lookup words).map (printValue buffer value ++ ·)

def outputEnv (words envp environ : List Text) (inpSymb : Char) : Option (List Char) :=
  match inpSymb with
  | '+' => printValues (fun buffer => some (getenv environ buffer)) words
  | '*' => printValues (parsEnvText envp) words
  | '&' => printValues (parsEnvText environ) words
  | _ => some []

/-- A name of an environment variable. -/
structure Name extends CString '\x00' where
  nonempty : chars ≠ []
  noEquals : '=' ∉ chars

abbrev Name.text (name : Name) : Text := name.toCString

/-- The entry has the form `name=value`. -/
def Defines (entry : Text) (name : Name) (value : List Char) : Prop :=
  entry.chars = name.chars ++ '=' :: value

theorem exists_defines_iff {entry : Text} {name : Name} :
    (∃ value, Defines entry name value) ↔ name.chars ++ ['='] <+: entry.chars := by
  constructor
  · rintro ⟨value, h⟩
    exact ⟨value, by rw [h, List.append_assoc]; rfl⟩
  · rintro ⟨value, h⟩
    exact ⟨value, by rw [Defines, ← h, List.append_assoc]; rfl⟩

theorem Defines.drop {entry : Text} {name : Name} {value : List Char}
    (h : Defines entry name value) :
    entry.chars.drop (name.text.length + 1) = value := by
  rw [h, CString.length, ← List.drop_drop, List.drop_left]
  rfl

section Scan
variable {name : Name} {entry : Text} {i : ℕ} {c : Char}

theorem Name.char_ne (hc : name.chars[i]? = some c) : c ≠ '\x00' ∧ c ≠ '=' := by
  constructor
  · rintro rfl
    exact name.noNul (List.mem_of_getElem? hc)
  · rintro rfl
    exact name.noEquals (List.mem_of_getElem? hc)

theorem Name.read_eq (hc : name.chars[i]? = some c) : name.text.read i = some c :=
  (CString.read_eq_some_iff (Name.char_ne hc).1).mpr hc

theorem scanEntry_of_end (h : i = name.text.length) : scanEntry name.text entry i = some none := by
  have hread := name.text.read_length
  rw [← h] at hread
  rw [scanEntry]
  split
  · simp_all
  · rename_i d hd
    obtain rfl : '\x00' = d := by simpa [hread] using hd
    simp

/-- At the first difference the entry is left. -/
theorem scanEntry_of_ne (hc : name.chars[i]? = some c) (hi : i ≤ entry.length)
    (hne : entry.chars[i]? ≠ some c) : scanEntry name.text entry i = some none := by
  obtain ⟨e, he⟩ := CString.read_of_le hi
  have hread := Name.read_eq hc
  have hnul := (Name.char_ne hc).1
  have hce : c ≠ e := by
    rintro rfl
    exact hne ((CString.read_eq_some_iff hnul).mp he)
  rw [scanEntry]
  split
  · simp_all
  · rename_i d hd
    obtain rfl : c = d := by simpa [hread] using hd
    simp [hnul, he, hce]

/-- The same character on both sides: the next one decides. -/
theorem scanEntry_of_eq (hc : name.chars[i]? = some c) (he : entry.chars[i]? = some c) :
    scanEntry name.text entry i =
      if i + 1 = name.text.length ∧ entry.chars[i + 1]? = some '=' then some (some (i + 2))
      else scanEntry name.text entry (i + 1) := by
  have hread := Name.read_eq hc
  obtain ⟨hnul, heq⟩ := Name.char_ne hc
  have hentry : entry.read i = some c := (CString.read_eq_some_iff hnul).mpr he
  have hlt := CString.lt_of_read hread hnul
  have hlt' := CString.lt_of_read hentry hnul
  obtain ⟨d, hd⟩ := CString.read_of_le (s := name.text) hlt
  obtain ⟨e, he'⟩ := CString.read_of_le (s := entry) hlt'
  have hend : d = '\x00' ↔ i + 1 = name.text.length := by
    rw [← CString.read_eq_nul_iff, hd, Option.some_inj]
  have hassign : e = '=' ↔ entry.chars[i + 1]? = some '=' := by
    rw [← CString.read_eq_some_iff (by decide : '=' ≠ '\x00'), he', Option.some_inj]
  rw [scanEntry]
  split
  · simp_all
  · rename_i c' hc'
    obtain rfl : c = c' := by simpa [hread] using hc'
    simp only [hnul, hentry, heq, hd, he', Option.bind_some, ne_eq, not_true_eq_false, if_false,
      dite_false, hend, hassign]
    by_cases hlast : i + 1 = name.text.length
    · simp [hlast]
    · simp [hlast]

/-- The loop finds out whether the entry goes on with the rest of the name and `=`. -/
theorem scanEntry_eq (hi : i < name.text.length) (hp : name.chars.take i <+: entry.chars) :
    scanEntry name.text entry i =
      some (if name.chars ++ ['='] <+: entry.chars then some (name.text.length + 1) else none) := by
  induction hn : name.text.length - i generalizing i with
  | zero => omega
  | succ n ih =>
    obtain ⟨c, hc⟩ : ∃ c, name.chars[i]? = some c := ⟨_, List.getElem?_eq_getElem hi⟩
    by_cases he : entry.chars[i]? = some c
    · rw [scanEntry_of_eq hc he]
      have hp' : name.chars.take (i + 1) <+: entry.chars := (take_succ_prefix_iff hc).mpr ⟨hp, he⟩
      by_cases hlast : i + 1 = name.text.length
      · have hall : name.chars.take (i + 1) = name.chars :=
          List.take_of_length_le (Nat.le_of_eq hlast.symm)
        rw [hall] at hp'
        have hlen : name.chars.length = i + 1 := hlast.symm
        simp only [concat_prefix_iff, hp', hlen, hlast, true_and]
        split_ifs
        · rw [← hlast]
        · exact scanEntry_of_end rfl
      · rw [if_neg (fun h => hlast h.1)]
        exact ih (by omega) hp' (by omega)
    · have hle : i ≤ entry.length := by
        have hlen := hp.length_le
        rwa [List.length_take_of_le (Nat.le_of_lt hi)] at hlen
      have hnot : ¬ name.chars ++ ['='] <+: entry.chars := by
        intro h
        have htake := (List.take_prefix (i + 1) name.chars).trans (concat_prefix_iff.mp h).1
        exact he ((take_succ_prefix_iff hc).mp htake).2
      rw [scanEntry_of_ne hc hle he, if_neg hnot]

theorem scanEntry_zero (name : Name) (entry : Text) :
    scanEntry name.text entry 0 =
      some (if name.chars ++ ['='] <+: entry.chars then some (name.text.length + 1) else none) := by
  apply scanEntry_eq
  · exact List.length_pos_iff.mpr name.nonempty
  · exact List.nil_prefix

end Scan

section Lookup
variable {environ : List Text} {name : Name} {p : Position}

theorem assigns_iff_defines {entry : Text} :
    assigns name.text entry = true ↔ ∃ value, Defines entry name value := by
  rw [assigns, List.isPrefixOf_iff_prefix, exists_defines_iff]

/-- The loop over the array finds the first entry for the name. -/
theorem scanEnviron_eq (environ : List Text) (name : Name) (k : ℕ) :
    scanEnviron name.text k environ =
      some ((environ.findIdx? (assigns name.text)).map fun j => ⟨k + j, name.text.length + 1⟩) := by
  induction environ generalizing k with
  | nil => rfl
  | cons entry env ih =>
    rw [scanEnviron, scanEntry_zero, List.findIdx?_cons]
    by_cases h : name.chars ++ ['='] <+: entry.chars
    · have hd : assigns name.text entry = true := List.isPrefixOf_iff_prefix.mpr h
      simp [h, hd]
    · have hd : assigns name.text entry = false := by
        rw [← Bool.not_eq_true, assigns, List.isPrefixOf_iff_prefix]
        exact h
      rw [if_neg h, hd, Option.bind_some, ih]
      simp [Option.map_map, Function.comp_def, Nat.add_assoc, Nat.add_comm 1]

theorem parsEnv_eq (environ : List Text) (name : Name) :
    parsEnv environ name.text =
      some ((environ.findIdx? (assigns name.text)).map fun j => ⟨j, name.text.length + 1⟩) := by
  rw [parsEnv, scanEnviron_eq]
  simp

theorem parsEnv_eq_none_iff :
    parsEnv environ name.text = some none ↔
      ∀ entry ∈ environ, ∀ value, ¬ Defines entry name value := by
  rw [parsEnv_eq, Option.some_inj, Option.map_eq_none_iff, List.findIdx?_eq_none_iff]
  apply forall₂_congr
  intro entry _
  rw [← Bool.not_eq_true, assigns_iff_defines, not_exists]

/-- Entry `k` is the first one for the name, and this is its value. -/
structure FirstDefinition (environ : List Text) (name : Name) (k : ℕ) (value : List Char) :
    Prop where
  defines : ∃ entry, environ[k]? = some entry ∧ Defines entry name value
  first : ∀ j < k, ∀ entry, environ[j]? = some entry → ∀ earlier, ¬ Defines entry name earlier

theorem exists_firstDefinition_iff {k : ℕ} :
    (∃ value, FirstDefinition environ name k value) ↔
      environ.findIdx? (assigns name.text) = some k := by
  rw [List.findIdx?_eq_some_iff_getElem]
  constructor
  · rintro ⟨value, ⟨entry, hk, hentry⟩, hfirst⟩
    obtain ⟨hlt, rfl⟩ := List.getElem?_eq_some_iff.mp hk
    refine ⟨hlt, assigns_iff_defines.mpr ⟨value, hentry⟩, ?_⟩
    intro j hj hdef
    obtain ⟨earlier, he⟩ := assigns_iff_defines.mp hdef
    exact hfirst j hj _ (List.getElem?_eq_getElem _) earlier he
  · rintro ⟨hlt, hdef, hfirst⟩
    obtain ⟨value, hentry⟩ := assigns_iff_defines.mp hdef
    refine ⟨value, ⟨_, List.getElem?_eq_getElem hlt, hentry⟩, ?_⟩
    intro j hj entry hget earlier he
    obtain ⟨_, rfl⟩ := List.getElem?_eq_some_iff.mp hget
    exact hfirst j hj (assigns_iff_defines.mpr ⟨earlier, he⟩)

theorem FirstDefinition.textAt_eq {k : ℕ} {value : List Char}
    (h : FirstDefinition environ name k value) :
    textAt environ ⟨k, name.text.length + 1⟩ = some value := by
  obtain ⟨entry, hk, hentry⟩ := h.defines
  have hle : name.text.length + 1 ≤ entry.length := by
    change name.chars.length + 1 ≤ entry.chars.length
    rw [hentry, List.length_append, List.length_cons]
    omega
  rw [textAt, hk, Option.bind_some, CString.suffix_of_le hle, hentry.drop]

theorem FirstDefinition.getenv_eq {k : ℕ} {value : List Char}
    (h : FirstDefinition environ name k value) : getenv environ name.text = some value := by
  obtain ⟨entry, hk, hentry⟩ := h.defines
  obtain ⟨hlt, rfl⟩ := List.getElem?_eq_some_iff.mp hk
  have hfind : environ.find? (assigns name.text) = some environ[k] := by
    rw [List.find?_eq_some_iff_getElem]
    refine ⟨assigns_iff_defines.mpr ⟨value, hentry⟩, k, hlt, rfl, ?_⟩
    intro j hj
    rw [Bool.not_eq_true', ← Bool.not_eq_true, assigns_iff_defines, not_exists]
    exact h.first j hj _ (List.getElem?_eq_getElem _)
  rw [getenv, hfind, Option.map_some, hentry.drop]

theorem parsEnv_eq_some_iff :
    parsEnv environ name.text = some (some p) ↔
      (∃ value, FirstDefinition environ name p.entry value) ∧
        p.offset = name.text.length + 1 := by
  rw [parsEnv_eq, Option.some_inj, Option.map_eq_some_iff, exists_firstDefinition_iff]
  constructor
  · rintro ⟨k, hk, rfl⟩
    exact ⟨hk, rfl⟩
  · rintro ⟨hk, hoffset⟩
    exact ⟨p.entry, hk, by rw [← hoffset]⟩

theorem getenv_eq_none (h : ∀ entry ∈ environ, ∀ value, ¬ Defines entry name value) :
    getenv environ name.text = none := by
  rw [getenv, Option.map_eq_none_iff, List.find?_eq_none]
  intro entry hentry hdef
  obtain ⟨value, hv⟩ := assigns_iff_defines.mp hdef
  exact h entry hentry value hv

theorem parsEnvText_eq (environ : List Text) (name : Name) :
    parsEnvText environ name.text = some (getenv environ name.text) := by
  rw [parsEnvText]
  cases hfind : environ.findIdx? (assigns name.text) with
  | none =>
    have hnone : parsEnv environ name.text = some none := by
      rw [parsEnv_eq, hfind, Option.map_none]
    rw [hnone, getenv_eq_none (parsEnv_eq_none_iff.mp hnone), Option.bind_some]
  | some k =>
    obtain ⟨value, h⟩ := exists_firstDefinition_iff.mpr hfind
    rw [parsEnv_eq, hfind, Option.map_some, Option.bind_some]
    simp only [h.textAt_eq, h.getenv_eq, Option.map_some]

theorem printValues_eq {f g : Text → Option (Option (List Char))}
    (h : ∀ name : Name, f name.text = g name.text) (names : List Name) :
    printValues f (names.map Name.text) = printValues g (names.map Name.text) := by
  induction names with
  | nil => rfl
  | cons name names ih => simp only [List.map_cons, printValues, h, ih]

end Lookup

/-- `parsEnv` is a lookup in this array, by any name. -/
structure CorrectLookup (environ : List Text) : Prop where
  inBounds : ∀ name : Name, ∃ result, parsEnv environ name.text = some result
  found_iff : ∀ (name : Name) (p : Position), parsEnv environ name.text = some (some p) ↔
    (∃ value, FirstDefinition environ name p.entry value) ∧ p.offset = name.text.length + 1
  value : ∀ (name : Name) (k : ℕ) (value : List Char), FirstDefinition environ name k value →
    textAt environ ⟨k, name.text.length + 1⟩ = some value
  null_iff : ∀ name : Name, parsEnv environ name.text = some none ↔
    ∀ entry ∈ environ, ∀ value, ¬ Defines entry name value
  agrees : ∀ name : Name, parsEnvText environ name.text = some (getenv environ name.text)
  modes : ∀ names : List Name, ∀ inpSymb ∈ ['+', '*', '&'],
    outputEnv (names.map Name.text) environ environ inpSymb =
      outputEnv (names.map Name.text) environ environ '+'

theorem parsEnv_correct (environ : List Text) : CorrectLookup environ where
  inBounds name := ⟨_, parsEnv_eq environ name⟩
  found_iff _ _ := parsEnv_eq_some_iff
  value _ _ _ h := h.textAt_eq
  null_iff _ := parsEnv_eq_none_iff
  agrees := parsEnvText_eq environ
  modes names inpSymb h := by
    have hmode : inpSymb = '+' ∨ inpSymb = '*' ∨ inpSymb = '&' := by simpa using h
    rcases hmode with rfl | rfl | rfl
    · rfl
    · exact printValues_eq (parsEnvText_eq environ) names
    · exact printValues_eq (parsEnvText_eq environ) names

end OsispLabs.Lab2
