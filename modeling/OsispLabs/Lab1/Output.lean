import OsispLabs.Lab1.Completeness

/-!
# What the options do to the output

The type options only select lines: they change neither what is walked through nor the order. With
the sorting option the lines are in the order of their paths, name by name.
-/
namespace OsispLabs.Lab1
open Lib

/-- The line is of a selected type. -/
def Options.keeps (o : Options) (text : List Char) : Bool :=
  match text[1]? with
  | some ' ' => o.d
  | some 'L' => o.l
  | some 'F' => o.f
  | _ => false

namespace FileSystem
open Entries

variable {fs : FileSystem} {o : Options} {path name : List Char} {entries : Entries}
  {out : List (List Char)}

theorem keeps_line (o : Options) {kind : Kind} (h : kind ≠ .other) (path : List Char) :
    o.keeps (line kind path) = o.selects kind := by
  have hall : (⟨true, true, true, true⟩ : Options).selects kind = true := by
    cases kind <;> first | rfl | exact absurd rfl h
  rw [Options.keeps, line_mark hall]
  cases kind <;> rfl

theorem printed_filter (o : Options) (s : Bool) (kind : Kind) (path : List Char) :
    printed o kind path = (printed ⟨true, true, true, s⟩ kind path).filter o.keeps := by
  by_cases h : kind = .other
  · subst h
    rfl
  · have hall : (⟨true, true, true, s⟩ : Options).selects kind = true := by
      cases kind <;> first | rfl | exact absurd rfl h
    rw [printed, printed, if_pos hall, List.filter_singleton, keeps_line o h]
    cases o.selects kind <;> rfl

/-- A turn with some types selected. -/
theorem visit_filter (fs : FileSystem) (o : Options) (path name : List Char) :
    fs.visit o path name =
      ((fs.visit ⟨true, true, true, o.s⟩ path name).1.filter o.keeps,
        (fs.visit ⟨true, true, true, o.s⟩ path name).2) := by
  by_cases hdots : isDots name = true
  · rw [visit_of_dots hdots, visit_of_dots hdots]
    rfl
  · cases hlstat : fs.lstat (fullpath path name) with
    | none => simp only [visit, hdots, hlstat, if_false, List.filter_nil, Bool.false_eq_true]
    | some kind =>
      have hname : isDots name = false := by simpa using hdots
      rw [visit_of_lstat hname hlstat, visit_of_lstat hname hlstat, printed_filter o o.s]

/-- On every file system and from every path: the walk with some types selected ends exactly where
the walk with all types ends, and prints those of its lines that are selected, in its order. -/
theorem dirwalkStdout_filter (fs : FileSystem) (o : Options) (fuel : ℕ) (path : List Char) :
    fs.dirwalkStdout o fuel path =
      (fs.dirwalkStdout ⟨true, true, true, o.s⟩ fuel path).map (List.filter o.keeps) := by
  apply traverse_map List.filter_append
  intro p
  rw [turns, turns, List.map_map]
  exact List.map_congr_left fun name _ => fs.visit_filter o p name

end FileSystem

/-- The path of an entry, from the names below a path. -/
def joined (path : List Char) (names : List (List Char)) : List Char :=
  names.foldl (fun p name => p ++ '/' :: name) path

/-- The order of paths, name by name: a directory comes before what is in it, and entries of one
directory are in the order of their names. -/
def Before (strcoll : List Char → List Char → ℤ) : List (List Char) → List (List Char) → Prop
  | [], _ => True
  | _ :: _, [] => False
  | a :: as, b :: bs => if a = b then Before strcoll as bs else strcoll a b ≤ 0

/-- No directory has two entries of one name. -/
def Entries.Distinct : Entries → Prop
  | nil => True
  | leaf name _ rest => name.chars ∉ rest.names ∧ rest.Distinct
  | directory name entries rest => name.chars ∉ rest.names ∧ entries.Distinct ∧ rest.Distinct

/-- `strcoll` compares any two names, and consistently. -/
structure Collates (strcoll : List Char → List Char → ℤ) : Prop where
  trans : ∀ a b c, strcoll a b ≤ 0 → strcoll b c ≤ 0 → strcoll a c ≤ 0
  total : ∀ a b, strcoll a b ≤ 0 ∨ strcoll b a ≤ 0

/-- The lines are those of these entries below a path, in their order. -/
structure Prints (path : List Char) (items : List (Kind × List (List Char)))
    (out : List (List Char)) : Prop where
  lines : out = items.map fun e => line e.1 (joined path e.2)
  noSlash : ∀ e ∈ items, ∀ name ∈ e.2, '/' ∉ name

/-- The lines of the entry with this name and of what is below it, in the order of their paths. -/
structure Section (strcoll : List Char → List Char → ℤ) (path name : List Char)
    (items : List (Kind × List (List Char))) (out : List (List Char)) : Prop where
  prints : Prints path items out
  below : ∀ e ∈ items, ∃ rest, e.2 = name :: rest
  ordered : items.Pairwise fun a b => Before strcoll a.2 b.2

namespace Entries

variable {entries : Entries}

theorem Distinct.nodup (h : entries.Distinct) : entries.names.Nodup := by
  induction entries with
  | nil => exact List.nodup_nil
  | leaf name kind rest ih => exact List.nodup_cons.mpr ⟨h.1, ih h.2⟩
  | directory name entries rest _ ihr => exact List.nodup_cons.mpr ⟨h.1, ihr h.2.2⟩

end Entries

namespace FileSystem
open Entries

variable {fs : FileSystem} {o : Options} {path name : List Char} {entries : Entries}
  {out : List (List Char)} {strcoll : List Char → List Char → ℤ}

/-- An entry, by its name: a leaf, or a directory with smaller contents. -/
inductive HasEntry (fs : FileSystem) (path : List Char) (entries : Entries) (name : Name) : Prop
  | leaf (kind : Kind) (hkind : kind ≠ .directory)
      (hpath : (kind, name.under path) ∈ entries.paths path)
      (hlstat : (name.under path).length < pathMax → fs.lstat (name.under path) = some kind)
  | directory (sub : Entries) (hpath : (.directory, name.under path) ∈ entries.paths path)
      (hsub : ∀ e ∈ sub.paths (name.under path), e ∈ entries.paths path)
      (hopen : (name.under path).length < pathMax →
        fs.lstat (name.under path) = some .directory ∧ fs.Opens (name.under path) sub)
      (hcontains : fs.Contains (name.under path) sub) (hdistinct : sub.Distinct)
      (hsmaller : sizeOf sub < sizeOf entries)

theorem exists_hasEntry (hcontains : fs.Contains path entries) (hdistinct : entries.Distinct)
    (hname : name ∈ entries.names) :
    ∃ n : Name, n.chars = name ∧ fs.HasEntry path entries n := by
  induction entries with
  | nil => cases hname
  | leaf n kind rest ih =>
    rcases List.mem_cons.mp hname with rfl | hname
    · exact ⟨n, rfl, .leaf kind.1 kind.2 List.mem_cons_self hcontains.1⟩
    · obtain ⟨m, hm, hentry⟩ := ih hcontains.2 hdistinct.2 hname
      refine ⟨m, hm, ?_⟩
      cases hentry with
      | leaf k hk hpath hlstat => exact .leaf k hk (List.mem_cons_of_mem _ hpath) hlstat
      | directory sub hpath hsub hopen hin hd hsmaller =>
        refine .directory sub (List.mem_cons_of_mem _ hpath)
          (fun e he => List.mem_cons_of_mem _ (hsub e he)) hopen hin hd ?_
        simp only [leaf.sizeOf_spec]
        omega
  | directory n below rest _ ihr =>
    rcases List.mem_cons.mp hname with rfl | hname
    · refine ⟨n, rfl, .directory below List.mem_cons_self
        (fun e he => List.mem_cons_of_mem _ (List.mem_append_left _ he)) hcontains.1
        hcontains.2.1 hdistinct.2.1 ?_⟩
      simp only [directory.sizeOf_spec]
      omega
    · obtain ⟨m, hm, hentry⟩ := ihr hcontains.2.2 hdistinct.2.2 hname
      have hmem : ∀ e ∈ rest.paths path, e ∈ (directory n below rest).paths path :=
        fun e he => List.mem_cons_of_mem _ (List.mem_append_right _ he)
      refine ⟨m, hm, ?_⟩
      cases hentry with
      | leaf k hk hpath hlstat => exact .leaf k hk (hmem _ hpath) hlstat
      | directory sub hpath hsub hopen hin hd hsmaller =>
        refine .directory sub (hmem _ hpath) (fun e he => hmem e (hsub e he)) hopen hin hd ?_
        simp only [directory.sizeOf_spec]
        omega

theorem Section.of_printed (kind : Kind) (hname : '/' ∉ name) :
    Section strcoll path name (if o.selects kind then [(kind, [name])] else [])
      (printed o kind (path ++ '/' :: name)) := by
  cases h : o.selects kind with
  | false =>
    refine ⟨⟨?_, ?_⟩, ?_, ?_⟩ <;> simp [printed, h]
  | true =>
    refine ⟨⟨?_, ?_⟩, ?_, ?_⟩ <;> simp [printed, h, joined, hname]

/-- A directory with its own line in front of the lines of what is in it. -/
theorem Section.of_directory {items : List (Kind × List (List Char))} (hname : '/' ∉ name)
    (hprints : Prints (path ++ '/' :: name) items out)
    (hordered : items.Pairwise fun a b => Before strcoll a.2 b.2) :
    Section strcoll path name
      ((if o.selects .directory then [(.directory, [name])] else []) ++
        items.map fun e => (e.1, name :: e.2))
      (printed o .directory (path ++ '/' :: name) ++ out) := by
  have hself : Section strcoll path name
      (if o.selects .directory then [(.directory, [name])] else [])
      (printed o .directory (path ++ '/' :: name)) := Section.of_printed .directory hname
  obtain ⟨hhead, hbelow, hfirst⟩ := hself
  refine ⟨⟨?_, ?_⟩, ?_, ?_⟩
  · rw [List.map_append, ← hhead.lines, hprints.lines, List.map_map]
    rfl
  · intro e he
    rcases List.mem_append.mp he with he | he
    · exact hhead.noSlash e he
    · obtain ⟨d, hd, rfl⟩ := List.mem_map.mp he
      exact List.forall_mem_cons.mpr ⟨hname, hprints.noSlash d hd⟩
  · intro e he
    rcases List.mem_append.mp he with he | he
    · exact hbelow e he
    · obtain ⟨d, -, rfl⟩ := List.mem_map.mp he
      exact ⟨d.2, rfl⟩
  · rw [List.pairwise_append]
    refine ⟨hfirst, ?_, ?_⟩
    · rw [List.pairwise_map]
      refine hordered.imp fun {a b} hab => ?_
      rw [Before, if_pos rfl]
      exact hab
    · intro a ha b hb
      obtain ⟨d, -, rfl⟩ := List.mem_map.mp hb
      rw [List.mem_ite_nil_right] at ha
      obtain ⟨-, ha⟩ := ha
      rw [List.mem_singleton.mp ha, Before, if_pos rfl]
      trivial

/-- The lines for the names of a directory. -/
theorem exists_items {names : List (List Char)}
    (hnames : names.Pairwise fun a b => a ≠ b ∧ strcoll a b ≤ 0)
    (hsection : ∀ name ∈ names, ∀ o₁, ItemYields (fs.turns o) (fs.visit o path name) o₁ →
      ∃ items, Section strcoll path name items o₁)
    (hout : ItemsYield (fs.turns o) (names.map (fs.visit o path)) out) :
    ∃ items, Prints path items out ∧ (items.Pairwise fun a b => Before strcoll a.2 b.2) ∧
      ∀ e ∈ items, ∃ name ∈ names, ∃ rest, e.2 = name :: rest := by
  induction names generalizing out with
  | nil =>
    obtain rfl := itemsYield_nil.mp hout
    exact ⟨[], ⟨rfl, by simp⟩, List.Pairwise.nil, by simp⟩
  | cons name names ih =>
    obtain ⟨o₁, rest, hitem, hrest, rfl⟩ := itemsYield_cons.mp hout
    obtain ⟨hfirst, htail⟩ := List.pairwise_cons.mp hnames
    obtain ⟨items, hprints, hbelow, hordered⟩ := hsection name List.mem_cons_self o₁ hitem
    obtain ⟨items', hprints', hordered', hbelow'⟩ := ih htail
      (fun n hn => hsection n (List.mem_cons_of_mem _ hn)) hrest
    refine ⟨items ++ items', ⟨?_, ?_⟩, List.pairwise_append.mpr ⟨hordered, hordered', ?_⟩, ?_⟩
    · rw [List.map_append, ← hprints.lines, ← hprints'.lines]
    · intro e he
      rcases List.mem_append.mp he with he | he
      · exact hprints.noSlash e he
      · exact hprints'.noSlash e he
    · intro a ha b hb
      obtain ⟨as, ha⟩ := hbelow a ha
      obtain ⟨n, hn, bs, hb⟩ := hbelow' b hb
      obtain ⟨hne, hle⟩ := hfirst n hn
      rw [ha, hb, Before, if_neg hne]
      exact hle
    · intro e he
      rcases List.mem_append.mp he with he | he
      · exact ⟨name, List.mem_cons_self, hbelow e he⟩
      · obtain ⟨n, hn, hrest⟩ := hbelow' e he
        exact ⟨n, List.mem_cons_of_mem _ hn, hrest⟩

/-- The names of a directory that are not dots are in the order of `strcoll`, each once. -/
theorem Opens.pairwise_namelist (h : fs.Opens path entries) (hdistinct : entries.Distinct)
    (hcollates : Collates fs.strcoll) :
    ((fs.namelist true path).filter fun name => !isDots name).Pairwise fun a b =>
      a ≠ b ∧ fs.strcoll a b ≤ 0 := by
  obtain ⟨names, hnames, hentries⟩ := h
  have hperm := (namelist_perm true hnames).filter fun name => !isDots name
  rw [hentries] at hperm
  rw [List.pairwise_and_iff]
  constructor
  · exact hperm.nodup_iff.mpr hdistinct.nodup
  · refine List.Pairwise.sublist List.filter_sublist ?_
    rw [namelist, hnames]
    have htrans : ∀ a b c, decide (fs.strcoll a b ≤ 0) = true →
        decide (fs.strcoll b c ≤ 0) = true → decide (fs.strcoll a c ≤ 0) = true := by
      simpa using hcollates.trans
    have htotal : ∀ a b, (decide (fs.strcoll a b ≤ 0) || decide (fs.strcoll b a ≤ 0)) = true := by
      simpa using hcollates.total
    simpa using List.pairwise_mergeSort htrans htotal names

theorem Opens.mem_namelist (h : fs.Opens path entries) {s : Bool}
    (hname : name ∈ (fs.namelist s path).filter fun name => !isDots name) :
    name ∈ entries.names := by
  obtain ⟨names, hnames, hentries⟩ := h
  rw [← hentries]
  exact ((namelist_perm s hnames).filter _).mem_iff.mp hname

/-- The walk of a directory whose paths fit, with the sorting option. -/
theorem exists_sorted (hsort : o.s = true) (hcollates : Collates fs.strcoll)
    (h : fs.Holds path entries) (hdistinct : entries.Distinct)
    (hfits : ∀ e ∈ entries.paths path, e.2.length ≤ 255)
    (hout : Yields (fs.turns o) path out) :
    ∃ items, Prints path items out ∧ items.Pairwise fun a b => Before fs.strcoll a.2 b.2 := by
  induction hn : sizeOf entries using Nat.strongRecOn generalizing path entries out with
  | ind n ih =>
    have hsection : ∀ name ∈ (fs.namelist true path).filter (fun name => !isDots name), ∀ o₁,
        ItemYields (fs.turns o) (fs.visit o path name) o₁ →
          ∃ items, Section fs.strcoll path name items o₁ := by
      intro name hname o₁ hitem
      obtain ⟨name, rfl, hentry⟩ :=
        exists_hasEntry h.contains hdistinct (h.opens.mem_namelist hname)
      cases hentry with
      | leaf kind hkind hpath hlstat =>
        rw [visit_of_fits (hfits _ hpath) hlstat, if_neg hkind] at hitem
        obtain rfl : o₁ = printed o kind (name.under path) := hitem
        exact ⟨_, Section.of_printed kind name.noSlash⟩
      | directory sub hpath hsub hopen hcontains hd hsmaller =>
        rw [visit_of_fits (hfits _ hpath) fun hlt => (hopen hlt).1, if_pos rfl] at hitem
        obtain ⟨below, hbelow, rfl⟩ := hitem
        obtain ⟨-, hopens⟩ := hopen (Nat.lt_of_le_of_lt (hfits _ hpath) (by decide))
        obtain ⟨items, hprints, hordered⟩ := ih _ (hn ▸ hsmaller) ⟨hopens, hcontains⟩ hd
          (fun e he => hfits e (hsub e he)) hbelow rfl
        exact ⟨_, Section.of_directory name.noSlash hprints hordered⟩
    have hyield := yields_iff.mp hout
    rw [turns, ← itemsYield_map_filter _ (silent_dots path), hsort] at hyield
    obtain ⟨items, hprints, hordered, -⟩ := exists_items
      (h.opens.pairwise_namelist hdistinct hcollates) hsection hyield
    exact ⟨items, hprints, hordered⟩

/-- With the sorting option and paths that fit: the walk ends, and it prints the lines of the
selected entries, each once, in the order of their paths. -/
theorem dirwalkStdout_sorted (hsort : o.s = true) (hcollates : Collates fs.strcoll)
    (h : fs.Holds path entries) (hdistinct : entries.Distinct)
    (hfits : ∀ e ∈ entries.paths path, e.2.length ≤ 255) :
    ∃ fuel out, (∀ fuel' ≥ fuel, fs.dirwalkStdout o fuel' path = some out) ∧
      out.Perm (entries.lines o path) ∧
      ∃ items, Prints path items out ∧ items.Pairwise fun a b => Before fs.strcoll a.2 b.2 := by
  obtain ⟨out, hyield, hperm⟩ :=
    exists_itemsYield (o := o) h.contains fun e he => .inl (hfits e he)
  obtain ⟨out', hyields, hperm'⟩ := h.opens.yields hyield
  have hsorted := exists_sorted hsort hcollates h hdistinct hfits hyields
  obtain ⟨fuel, hrun⟩ := hyields
  refine ⟨fuel, out', fun fuel' hle => ?_, hperm'.trans hperm, hsorted⟩
  exact Lib.traverse_mono hrun hle

end FileSystem

section Instances
open FileSystem

/-- The small tree with its entries out of order, compared by their first characters. -/
def shuffledTree : FileSystem where
  lstat := smallTree.lstat
  scandir path :=
    if path = "d".toList then some ["f".toList, ".".toList, "e".toList, "..".toList]
    else smallTree.scandir path
  strcoll a b := (a.headD 'a').toNat - (b.headD 'a').toNat

theorem regular_ne_directory : Kind.regular ≠ .directory := by decide

def shuffledEntries : Entries :=
  .leaf nameF ⟨.regular, regular_ne_directory⟩ (.directory nameE .nil .nil)

theorem shuffledTree_holds : shuffledTree.Holds "d".toList shuffledEntries where
  opens := ⟨_, rfl, rfl⟩
  contains := ⟨fun _ => rfl, fun _ => ⟨rfl, _, rfl, rfl⟩, trivial, trivial⟩

theorem shuffledTree_collates : Collates shuffledTree.strcoll where
  trans a b c hab hbc := by
    simp only [shuffledTree] at hab hbc ⊢
    omega
  total a b := by
    simp only [shuffledTree]
    omega

theorem shuffledTree_namelist :
    shuffledTree.namelist true "d".toList = [".".toList, "..".toList, "e".toList, "f".toList] ∧
      shuffledTree.namelist true "d/e".toList = [".".toList, "..".toList] := by
  constructor <;>
    simp [namelist, shuffledTree, smallTree, List.mergeSort, List.MergeSort.Internal.splitInTwo]

def allSorted : Options := { allTypes with s := true }

theorem shuffledTree_run : shuffledTree.dirwalkStdout allSorted 2 "d".toList =
    some ["\n DIR: d/e".toList, "\nFILE: d/f".toList] := by
  have hbelow : Lib.traverse (shuffledTree.turns allSorted) 1 "d/e".toList = some [] := by
    rw [Lib.traverse, turns, show allSorted.s = true from rfl, shuffledTree_namelist.2]
    decide +kernel
  have hturns : shuffledTree.turns allSorted "d".toList =
      [([], none), ([], none), (["\n DIR: d/e".toList], some "d/e".toList),
        (["\nFILE: d/f".toList], none)] := by
    rw [turns, show allSorted.s = true from rfl, shuffledTree_namelist.1]
    decide +kernel
  rw [dirwalkStdout, Lib.traverse, hturns]
  simp only [List.mapM_cons, List.mapM_nil, visitItem, hbelow]
  rfl

theorem dirwalkStdout_sorted_shuffledTree :
    ∃ out, shuffledTree.dirwalkStdout allSorted 2 "d".toList = some out ∧
      out.Perm (shuffledEntries.lines allSorted "d".toList) ∧
      ∃ items, Prints "d".toList items out ∧
        items.Pairwise fun a b => Before shuffledTree.strcoll a.2 b.2 := by
  have hselected : allSorted.s = true := rfl
  obtain ⟨fuel, out, hrun, hsorted⟩ := dirwalkStdout_sorted hselected shuffledTree_collates
    shuffledTree_holds ⟨by decide, by decide, trivial, trivial⟩ (by decide +kernel)
  obtain rfl := Yields.unique ⟨fuel, hrun fuel (Nat.le_refl fuel)⟩ ⟨2, shuffledTree_run⟩
  exact ⟨_, shuffledTree_run, hsorted⟩

end Instances

end OsispLabs.Lab1
