import OsispLabs.Lab1.Dirwalk

/-!
# Completeness of the directory walk

A path of more than 255 characters is cut in the buffer, and the walk goes on with whatever the rest
of it denotes. So it prints the lines of a tree exactly where all paths fit, up to entries without a
line that are cut to nothing of interest.
-/
namespace OsispLabs.Lab1
open Lib

namespace Entries

variable {o : Options} {path : List Char}

/-- What is printed for an entry. -/
def printed (o : Options) (kind : Kind) (path : List Char) : List (List Char) :=
  if o.selects kind then [line kind path] else []

theorem printed_eq_nil_iff {kind : Kind} : printed o kind path = [] ↔ o.selects kind = false := by
  rw [printed]
  cases o.selects kind <;> simp

/-- The second character of a line tells the type. -/
def mark : Kind → Char
  | .directory => ' '
  | .link => 'L'
  | .regular => 'F'
  | .other => '?'

theorem mark_inj {kind kind' : Kind} (h : mark kind = mark kind') : kind = kind' := by
  cases kind <;> cases kind' <;> first | rfl | exact absurd h (by decide)

theorem line_mark {kind : Kind} (h : o.selects kind = true) (path : List Char) :
    (line kind path)[1]? = some (mark kind) := by
  cases kind with
  | directory | link | regular => rfl
  | other => cases h

theorem line_inj {kind kind' : Kind} {path' : List Char} (h : o.selects kind = true)
    (h' : o.selects kind' = true) (hline : line kind path = line kind' path') : path = path' := by
  have hmark : some (mark kind) = some (mark kind') := by
    rw [← line_mark h path, hline, line_mark h' path']
  obtain rfl := mark_inj (Option.some.inj hmark)
  cases kind with
  | directory | link | regular => exact List.append_cancel_left hline
  | other => cases h

@[simp] theorem lines_nil (o : Options) (path : List Char) : nil.lines o path = [] := rfl

theorem lines_cons (o : Options) (e : Kind × List Char) (es : List (Kind × List Char)) :
    ((e :: es).filter fun e => o.selects e.1).map (fun e => line e.1 e.2) =
      printed o e.1 e.2 ++ (es.filter fun e => o.selects e.1).map fun e => line e.1 e.2 := by
  cases h : o.selects e.1 <;> simp [printed, h]

theorem lines_leaf (o : Options) (path : List Char) (name : Name)
    (kind : { kind : Kind // kind ≠ .directory }) (rest : Entries) :
    (leaf name kind rest).lines o path = printed o kind.1 (name.under path) ++ rest.lines o path :=
  lines_cons o _ _

theorem lines_directory (o : Options) (path : List Char) (name : Name) (entries rest : Entries) :
    (directory name entries rest).lines o path =
      printed o .directory (name.under path) ++
        (entries.lines o (name.under path) ++ rest.lines o path) := by
  rw [lines, paths, lines_cons]
  simp [lines]

theorem prefix_of_mem_paths {entries : Entries} {e : Kind × List Char}
    (he : e ∈ entries.paths path) : path <+: e.2 := by
  induction entries generalizing path with
  | nil => cases he
  | leaf name kind rest ih =>
    rcases List.mem_cons.mp he with rfl | he
    · exact List.prefix_append _ _
    · exact ih he
  | directory name entries rest ihe ihr =>
    rcases List.mem_cons.mp he with rfl | he
    · exact List.prefix_append _ _
    · rcases List.mem_append.mp he with he | he
      · exact (List.prefix_append _ _).trans (ihe he)
      · exact ihr he

theorem lines_eq_nil {entries : Entries}
    (h : ∀ e ∈ entries.paths path, o.selects e.1 = false) : entries.lines o path = [] := by
  rw [lines, List.map_eq_nil_iff, List.filter_eq_nil_iff]
  intro e he
  simp [h e he]

end Entries

namespace FileSystem
open Entries

variable {fs : FileSystem} {o : Options} {path name : List Char} {entries : Entries}
  {out : List (List Char)}

theorem visit_of_dots (h : isDots name = true) : fs.visit o path name = ([], none) := by
  rw [visit, if_pos h]

theorem visit_of_lstat {kind : Kind} (hname : isDots name = false)
    (h : fs.lstat (fullpath path name) = some kind) :
    fs.visit o path name = (printed o kind (fullpath path name),
      if kind = .directory then some (fullpath path name) else none) := by
  rw [visit, hname, if_neg Bool.false_ne_true, h]
  cases kind <;> rfl

theorem namelist_perm {names : List (List Char)} (s : Bool) (h : fs.scandir path = some names) :
    (fs.namelist s path).Perm names := by
  rw [namelist, h]
  cases s
  · exact List.Perm.refl _
  · exact List.mergeSort_perm _ _

/-- The turns for the entries of a directory. -/
def entryTurns (fs : FileSystem) (o : Options) (path : List Char) (entries : Entries) :
    List (List (List Char) × Option (List Char)) :=
  entries.names.map (fs.visit o path)

theorem silent_dots {names : List (List Char)} (path : List Char) :
    ∀ name ∈ names, (!isDots name) = false → fs.visit o path name = ([], none) := by
  intro name _ h
  exact visit_of_dots (by simpa using h)

/-- A directory that opens is walked through by its entries, in some order. -/
theorem Opens.entryTurns (h : fs.Opens path entries) (hout : Yields (fs.turns o) path out) :
    ∃ out', ItemsYield (fs.turns o) (fs.entryTurns o path entries) out' ∧ out'.Perm out := by
  obtain ⟨names, hnames, hentries⟩ := h
  have hperm := ((namelist_perm o.s hnames).map (fs.visit o path)).symm
  obtain ⟨out', hout', hperm'⟩ := (yields_iff.mp hout).perm hperm
  refine ⟨out', ?_, hperm'⟩
  rw [FileSystem.entryTurns, ← hentries]
  exact (itemsYield_map_filter _ (silent_dots path)).mpr hout'

theorem Opens.yields (h : fs.Opens path entries)
    (hout : ItemsYield (fs.turns o) (fs.entryTurns o path entries) out) :
    ∃ out', Yields (fs.turns o) path out' ∧ out'.Perm out := by
  obtain ⟨names, hnames, hentries⟩ := h
  rw [FileSystem.entryTurns, ← hentries, itemsYield_map_filter _ (silent_dots path)] at hout
  obtain ⟨out', hout', hperm⟩ := hout.perm ((namelist_perm o.s hnames).map (fs.visit o path))
  exact ⟨out', yields_iff.mpr hout', hperm⟩

theorem fullpath_of_fits {name : Name} (h : (name.under path).length ≤ 255) :
    fullpath path name.chars = name.under path :=
  List.take_of_length_le h

/-- The turn of an entry whose path fits. -/
theorem visit_of_fits {name : Name} {kind : Kind} (hfits : (name.under path).length ≤ 255)
    (h : (name.under path).length < pathMax → fs.lstat (name.under path) = some kind) :
    fs.visit o path name.chars = (printed o kind (name.under path),
      if kind = .directory then some (name.under path) else none) := by
  have hlstat := h (Nat.lt_of_le_of_lt hfits (by decide))
  rw [← fullpath_of_fits hfits] at hlstat ⊢
  exact visit_of_lstat name.noDots hlstat

theorem mem_namelist {s : Bool} :
    name ∈ fs.namelist s path ↔ name ∈ (fs.scandir path).getD [] := by
  cases hnames : fs.scandir path with
  | none => simp [namelist, hnames]
  | some names => exact (namelist_perm s hnames).mem_iff

theorem yields_nil_of_dots (h : ∀ name ∈ (fs.scandir path).getD [], isDots name = true) :
    Yields (fs.turns o) path [] := by
  have hsilent : ∀ name ∈ fs.namelist o.s path, false = false → fs.visit o path name = ([], none) :=
    fun name hname _ => visit_of_dots (h name (mem_namelist.mp hname))
  rw [yields_iff, turns, ← itemsYield_map_filter (fun _ => false) hsilent]
  simp

/-- A silent text makes a turn without output. -/
theorem Silent.itemYields (h : fs.Silent o (fullpath path name)) :
    ItemYields (fs.turns o) (fs.visit o path name) [] := by
  by_cases hdots : isDots name = true
  · rw [visit_of_dots hdots]
    rfl
  · rw [visit, if_neg hdots]
    rw [Silent] at h
    cases hlstat : fs.lstat (fullpath path name) with
    | none => rfl
    | some kind =>
      rw [hlstat] at h
      cases kind with
      | directory =>
        obtain ⟨hd, hall⟩ := h
        simp only [hd, Bool.false_eq_true, if_false]
        exact ⟨[], yields_nil_of_dots hall, rfl⟩
      | link => simp [ItemYields, h]
      | regular => simp [ItemYields, h]
      | other => rfl

/-- With a path of 255 characters the buffer holds the path itself, whatever the name. -/
theorem fullpath_of_full (h : path.length = 255) (name : List Char) :
    fullpath path name = path := by
  rw [fullpath, List.take_append_of_le_length (Nat.le_of_eq h.symm)]
  exact List.take_of_length_le (Nat.le_of_eq h)

/-- A directory with a path of 255 characters is walked through for ever, unless it is empty. -/
theorem not_yields_of_full {names : List (List Char)} (h : path.length = 255)
    (hlstat : fs.lstat path = some .directory) (hnames : fs.scandir path = some names)
    (hname : name ∈ names) (hdots : isDots name = false) : ¬ Yields (fs.turns o) path out := by
  apply not_yields (P := (· = path)) _ rfl
  rintro p rfl
  refine ⟨p, fs.visit o p name, List.mem_map_of_mem (mem_namelist.mpr ?_), ?_, rfl⟩
  · rw [hnames]
    exact hname
  · have hcall : fs.lstat (fullpath p name) = some .directory := by
      rw [fullpath_of_full h, hlstat]
    rw [visit_of_lstat hdots hcall, fullpath_of_full h]
    rfl

theorem silent_of_itemYields (hdots : isDots name = false)
    (h : ItemYields (fs.turns o) (fs.visit o path name) [])
    (hlen : (fullpath path name).length = 255) : fs.Silent o (fullpath path name) := by
  rw [Silent]
  cases hlstat : fs.lstat (fullpath path name) with
  | none => trivial
  | some kind =>
    rw [visit_of_lstat hdots hlstat] at h
    cases kind with
    | directory =>
      obtain ⟨rest, hrest, hnil⟩ := h
      obtain ⟨hprinted, rfl⟩ := List.append_eq_nil_iff.mp hnil.symm
      constructor
      · exact printed_eq_nil_iff.mp hprinted
      · intro entry hentry
        by_contra hproper
        cases hnames : fs.scandir (fullpath path name) with
        | none =>
          rw [hnames] at hentry
          cases hentry
        | some names =>
          rw [hnames] at hentry
          exact not_yields_of_full hlen hlstat hnames hentry (by simpa using hproper) hrest
    | link | regular => exact printed_eq_nil_iff.mp h.symm
    | other => trivial

theorem fullpath_length (h : 255 < (path ++ '/' :: name).length) :
    (fullpath path name).length = 255 := by
  rw [fullpath, List.length_take]
  exact Nat.min_eq_left (Nat.le_of_lt h)

/-- An entry whose path does not fit is passed over. -/
theorem Reachable.of_long {name : Name} {kind : Kind} (h : fs.Reachable o (kind, name.under path))
    (hlong : 255 < (name.under path).length) :
    o.selects kind = false ∧ ItemYields (fs.turns o) (fs.visit o path name.chars) [] := by
  obtain ⟨hselects, hsilent⟩ := h.resolve_left (Nat.not_le_of_lt hlong)
  exact ⟨hselects, Silent.itemYields hsilent⟩

theorem long_of_mem_paths {e : Kind × List Char} (hlong : 255 < path.length)
    (he : e ∈ entries.paths path) : 255 < e.2.length :=
  Nat.lt_of_lt_of_le hlong (prefix_of_mem_paths he).length_le

theorem unselected_of_long {e : Kind × List Char}
    (hfit : o.selects e.1 = true → e.2.length ≤ 255) (hlong : 255 < e.2.length) :
    o.selects e.1 = false := by
  by_contra hselects
  exact Nat.not_le_of_lt hlong (hfit (by simpa using hselects))

/-- Where all paths fit or are silent, the entries yield their lines. -/
theorem exists_itemsYield (hcontains : fs.Contains path entries)
    (hreach : ∀ e ∈ entries.paths path, fs.Reachable o e) :
    ∃ out, ItemsYield (fs.turns o) (fs.entryTurns o path entries) out ∧
      out.Perm (entries.lines o path) := by
  induction entries generalizing path with
  | nil => exact ⟨[], itemsYield_nil.mpr rfl, List.Perm.refl _⟩
  | leaf name kind rest ih =>
    obtain ⟨hlstat, hcontains⟩ := hcontains
    have hhead := hreach _ List.mem_cons_self
    obtain ⟨out, hout, hperm⟩ := ih hcontains fun e he => hreach e (List.mem_cons_of_mem _ he)
    have hitem : ItemYields (fs.turns o) (fs.visit o path name.chars)
        (printed o kind.1 (name.under path)) := by
      rcases Nat.lt_or_ge 255 (name.under path).length with hlong | hfits
      · obtain ⟨hselects, hnothing⟩ := hhead.of_long hlong
        rwa [printed_eq_nil_iff.mpr hselects]
      · rw [visit_of_fits hfits hlstat, if_neg kind.2]
        rfl
    rw [lines_leaf]
    exact ⟨_, itemsYield_cons.mpr ⟨_, out, hitem, hout, rfl⟩, hperm.append_left _⟩
  | directory name entries rest ihe ihr =>
    obtain ⟨hopen, hbelow, hcontains⟩ := hcontains
    have hhead := hreach _ List.mem_cons_self
    have hsub : ∀ e ∈ entries.paths (name.under path), fs.Reachable o e :=
      fun e he => hreach e (List.mem_cons_of_mem _ (List.mem_append_left _ he))
    obtain ⟨out, hout, hperm⟩ := ihr hcontains fun e he =>
      hreach e (List.mem_cons_of_mem _ (List.mem_append_right _ he))
    have hitem : ∃ sub, ItemYields (fs.turns o) (fs.visit o path name.chars)
          (printed o .directory (name.under path) ++ sub) ∧
        sub.Perm (entries.lines o (name.under path)) := by
      rcases Nat.lt_or_ge 255 (name.under path).length with hlong | hfits
      · obtain ⟨hselects, hnothing⟩ := hhead.of_long hlong
        have hlines : entries.lines o (name.under path) = [] := lines_eq_nil fun e he =>
          ((hsub e he).resolve_left (Nat.not_le_of_lt (long_of_mem_paths hlong he))).1
        rw [printed_eq_nil_iff.mpr hselects, hlines]
        exact ⟨[], hnothing, List.Perm.refl _⟩
      · obtain ⟨sub, hyield, hperm'⟩ := ihe hbelow hsub
        obtain ⟨-, hopens⟩ := hopen (Nat.lt_of_le_of_lt hfits (by decide))
        obtain ⟨sub', hyields, hperm''⟩ := hopens.yields hyield
        rw [visit_of_fits hfits fun h => (hopen h).1, if_pos rfl]
        exact ⟨sub', ⟨sub', hyields, rfl⟩, hperm''.trans hperm'⟩
    obtain ⟨sub, hitem, hperm'⟩ := hitem
    rw [lines_directory, ← List.append_assoc]
    exact ⟨_, itemsYield_cons.mpr ⟨_, out, hitem, hout, rfl⟩, (hperm'.append_left _).append hperm⟩

/-- An entry without a line whose path does not fit is passed over only if its text is silent, and
then everything below it is. -/
theorem reachable_of_long {name : Name} {e : Kind × List Char} {o₁ : List (List Char)}
    (hlong : 255 < (name.under path).length) (hpre : name.under path <+: e.2)
    (hselects : o.selects e.1 = false)
    (hitem : ItemYields (fs.turns o) (fs.visit o path name.chars) o₁) (hnil : o₁.length = 0) :
    fs.Reachable o e := by
  obtain rfl := List.length_eq_zero_iff.mp hnil
  obtain ⟨rest, hrest⟩ := hpre
  have htext : e.2.take 255 = fullpath path name.chars := by
    rw [← hrest, List.take_append_of_le_length (Nat.le_of_lt hlong)]
    rfl
  refine .inr ⟨hselects, ?_⟩
  rw [htext]
  exact silent_of_itemYields name.noDots hitem (fullpath_length hlong)

/-- Where all selected paths fit, the entries yield no less than their lines, and exactly as many
only if the other paths are silent. -/
theorem lines_length_le (hcontains : fs.Contains path entries)
    (hyield : ItemsYield (fs.turns o) (fs.entryTurns o path entries) out)
    (hfit : ∀ e ∈ entries.paths path, o.selects e.1 = true → e.2.length ≤ 255) :
    (entries.lines o path).length ≤ out.length ∧
      (out.length ≤ (entries.lines o path).length →
        ∀ e ∈ entries.paths path, fs.Reachable o e) := by
  induction entries generalizing path out with
  | nil => exact ⟨Nat.zero_le _, fun _ e he => absurd he (by simp [paths])⟩
  | leaf name kind rest ih =>
    obtain ⟨hlstat, hcontains⟩ := hcontains
    obtain ⟨o₁, o₂, hitem, hrest, rfl⟩ := itemsYield_cons.mp hyield
    obtain ⟨hle, hall⟩ := ih hcontains hrest fun e he => hfit e (List.mem_cons_of_mem _ he)
    have hhead : (printed o kind.1 (name.under path)).length ≤ o₁.length ∧
        (o₁.length ≤ (printed o kind.1 (name.under path)).length →
          fs.Reachable o (kind.1, name.under path)) := by
      rcases Nat.lt_or_ge 255 (name.under path).length with hlong | hfits
      · have hselects : o.selects kind.1 = false :=
          unselected_of_long (hfit _ List.mem_cons_self) hlong
        rw [printed_eq_nil_iff.mpr hselects]
        exact ⟨Nat.zero_le _, fun h => reachable_of_long hlong (List.prefix_refl _) hselects hitem
          (Nat.le_zero.mp h)⟩
      · rw [visit_of_fits hfits hlstat, if_neg kind.2] at hitem
        obtain rfl : o₁ = printed o kind.1 (name.under path) := hitem
        exact ⟨Nat.le_refl _, fun _ => .inl hfits⟩
    rw [lines_leaf, List.length_append, List.length_append]
    refine ⟨Nat.add_le_add hhead.1 hle, fun h e he => ?_⟩
    rcases List.mem_cons.mp he with rfl | he
    · exact hhead.2 (by omega)
    · exact hall (by omega) e he
  | directory name entries rest ihe ihr =>
    obtain ⟨hopen, hbelow, hcontains⟩ := hcontains
    obtain ⟨o₁, o₂, hitem, hrest, rfl⟩ := itemsYield_cons.mp hyield
    obtain ⟨hle, hall⟩ := ihr hcontains hrest fun e he =>
      hfit e (List.mem_cons_of_mem _ (List.mem_append_right _ he))
    have hsub : ∀ e ∈ entries.paths (name.under path), o.selects e.1 = true → e.2.length ≤ 255 :=
      fun e he => hfit e (List.mem_cons_of_mem _ (List.mem_append_left _ he))
    have hhead : (printed o .directory (name.under path)).length +
          (entries.lines o (name.under path)).length ≤ o₁.length ∧
        (o₁.length ≤ (printed o .directory (name.under path)).length +
            (entries.lines o (name.under path)).length →
          fs.Reachable o (.directory, name.under path) ∧
            ∀ e ∈ entries.paths (name.under path), fs.Reachable o e) := by
      rcases Nat.lt_or_ge 255 (name.under path).length with hlong | hfits
      · have hselects := unselected_of_long (hfit _ List.mem_cons_self) hlong
        have hnone : ∀ e ∈ entries.paths (name.under path), o.selects e.1 = false := fun e he =>
          unselected_of_long (hsub e he) (long_of_mem_paths hlong he)
        rw [printed_eq_nil_iff.mpr hselects, lines_eq_nil hnone]
        refine ⟨Nat.zero_le _, fun h => ?_⟩
        have hnil : o₁.length = 0 := Nat.le_zero.mp h
        exact ⟨reachable_of_long hlong (List.prefix_refl _) hselects hitem hnil, fun e he =>
          reachable_of_long hlong (prefix_of_mem_paths he) (hnone e he) hitem hnil⟩
      · obtain ⟨-, hopens⟩ := hopen (Nat.lt_of_le_of_lt hfits (by decide))
        rw [visit_of_fits hfits fun h => (hopen h).1, if_pos rfl] at hitem
        obtain ⟨sub, hyields, rfl⟩ := hitem
        obtain ⟨sub', hyield', hperm⟩ := hopens.entryTurns hyields
        obtain ⟨hsuble, hsuball⟩ := ihe hbelow hyield' hsub
        rw [hperm.length_eq] at hsuble hsuball
        rw [List.length_append]
        exact ⟨Nat.add_le_add_left hsuble _, fun h =>
          ⟨.inl hfits, hsuball (Nat.le_of_add_le_add_left h)⟩⟩
    rw [lines_directory]
    simp only [List.length_append]
    refine ⟨by omega, fun h e he => ?_⟩
    obtain ⟨hdir, hentries⟩ := hhead.2 (by omega)
    rcases List.mem_cons.mp he with rfl | he
    · exact hdir
    · rcases List.mem_append.mp he with he | he
      · exact hentries e he
      · exact hall (by omega) e he

/-- Everything printed is a line for a selected type and a path that fits. -/
theorem printed_of_mem (hout : Yields (fs.turns o) path out) :
    ∀ text ∈ out, ∃ kind p, o.selects kind = true ∧ p.length ≤ 255 ∧ text = line kind p := by
  refine hout.forall_mem ?_
  intro p item hitem text htext
  obtain ⟨name, -, rfl⟩ := List.mem_map.mp hitem
  by_cases hdots : isDots name = true
  · rw [visit_of_dots hdots] at htext
    cases htext
  · cases hlstat : fs.lstat (fullpath p name) with
    | none => simp [visit, hdots, hlstat] at htext
    | some kind =>
      rw [visit_of_lstat (by simpa using hdots) hlstat, printed] at htext
      obtain ⟨hselects, htext⟩ := List.mem_ite_nil_right.mp htext
      exact ⟨kind, _, hselects, List.length_take_le _ _, List.mem_singleton.mp htext⟩

/-- The walk is complete exactly where every path fits into the buffer, or belongs to an entry
without a line and is cut to the name of nothing that would be printed or walked through. -/
theorem complete_iff (h : fs.Holds path entries) :
    fs.Complete o path entries ↔ ∀ e ∈ entries.paths path, fs.Reachable o e := by
  constructor
  · rintro ⟨fuel, out, hrun, hperm⟩
    have hyields : Yields (fs.turns o) path out := ⟨fuel, hrun⟩
    obtain ⟨out', hyield, hperm'⟩ := h.opens.entryTurns hyields
    have hfit : ∀ e ∈ entries.paths path, o.selects e.1 = true → e.2.length ≤ 255 := by
      intro e he hselects
      have hmem : line e.1 e.2 ∈ out :=
        hperm.mem_iff.mpr (List.mem_map_of_mem (List.mem_filter.mpr ⟨he, hselects⟩))
      obtain ⟨kind, p, hkind, hp, heq⟩ := printed_of_mem hyields _ hmem
      rwa [line_inj hselects hkind heq]
    exact (lines_length_le h.contains hyield hfit).2 (Nat.le_of_eq (hperm'.trans hperm).length_eq)
  · intro hreach
    obtain ⟨out, hyield, hperm⟩ := exists_itemsYield h.contains hreach
    obtain ⟨out', ⟨fuel, hrun⟩, hperm'⟩ := h.opens.yields hyield
    exact ⟨fuel, out', hrun, hperm'.trans hperm⟩

/-- More fuel than enough prints the same. -/
theorem Complete.perm {fuel : ℕ} (h : fs.Complete o path entries)
    (hrun : fs.dirwalkStdout o fuel path = some out) : out.Perm (entries.lines o path) := by
  obtain ⟨fuel', out', hrun', hperm⟩ := h
  rwa [Yields.unique ⟨fuel, hrun⟩ ⟨fuel', hrun'⟩]

end FileSystem

section Instances
open FileSystem

def allTypes : Options := ⟨true, true, true, false⟩

def nameE : Name := ⟨['e'], by decide, by decide, by decide, by decide⟩
def nameF : Name := ⟨['f'], by decide, by decide, by decide, by decide⟩

/-- A directory `d` with an empty directory and a regular file. -/
def smallTree : FileSystem where
  lstat path :=
    if path = "d".toList ∨ path = "d/e".toList then some .directory
    else if path = "d/f".toList then some .regular
    else none
  scandir path :=
    if path = "d".toList then some [".".toList, "..".toList, "e".toList, "f".toList]
    else if path = "d/e".toList then some [".".toList, "..".toList]
    else none
  strcoll _ _ := 0

def smallEntries : Entries := .directory nameE .nil (.leaf nameF ⟨.regular, by decide⟩ .nil)

theorem smallTree_holds : smallTree.Holds "d".toList smallEntries where
  opens := ⟨_, rfl, rfl⟩
  contains := ⟨fun _ => ⟨rfl, _, rfl, rfl⟩, trivial, fun _ => rfl, trivial⟩

theorem complete_iff_smallTree :
    smallTree.Complete allTypes "d".toList smallEntries ∧
      smallTree.dirwalkStdout allTypes 2 "d".toList =
        some ["\n DIR: d/e".toList, "\nFILE: d/f".toList] := by
  refine ⟨(complete_iff smallTree_holds).mpr fun e he => .inl ?_, by decide +kernel⟩
  simp only [smallEntries, Entries.paths, List.nil_append, List.mem_cons, List.not_mem_nil,
    or_false] at he
  rcases he with rfl | rfl <;> decide

/-- A path of 254 characters. -/
def longPath : List Char := '/' :: List.replicate 253 'a'

/-- A directory with that path and one regular file. -/
def longTree : FileSystem where
  lstat path :=
    if path = longPath ∨ path = longPath ++ ['/'] then some .directory
    else if path = longPath ++ "/f".toList then some .regular
    else none
  scandir path :=
    if path = longPath ∨ path = longPath ++ ['/'] then some [".".toList, "..".toList, "f".toList]
    else none
  strcoll _ _ := 0

def longEntries : Entries := .leaf nameF ⟨.regular, by decide⟩ .nil

theorem longTree_scandir {path : List Char} (h : path = longPath ∨ path = longPath ++ ['/']) :
    longTree.scandir path = some [".".toList, "..".toList, "f".toList] := by
  rw [longTree]
  exact if_pos h

theorem longTree_holds : longTree.Holds longPath longEntries where
  opens := ⟨_, longTree_scandir (.inl rfl), rfl⟩
  contains := by
    have hlstat : longTree.lstat (nameF.under longPath) = some .regular := by decide +kernel
    exact ⟨fun _ => hlstat, trivial⟩

/-- The buffer holds the path and a slash, which is the directory again, and so on for ever. -/
theorem longTree_not_complete :
    longTree.Holds longPath longEntries ∧ ¬ longTree.Complete allTypes longPath longEntries := by
  refine ⟨longTree_holds, ?_⟩
  rintro ⟨fuel, out, hrun, -⟩
  refine not_yields (P := fun p => p = longPath ∨ p = longPath ++ ['/']) ?_ (.inl rfl) ⟨fuel, hrun⟩
  intro p hp
  refine ⟨longPath ++ ['/'], longTree.visit allTypes p ['f'], ?_, ?_, .inr rfl⟩
  · rcases hp with rfl | rfl <;> decide +kernel
  · rcases hp with rfl | rfl <;> decide +kernel

end Instances

end OsispLabs.Lab1
