import Mathlib.Data.List.Basic

/-!
# Merging two runs

The merge that takes from the first run only what is strictly before the head of the second one.
Every element is marked with its run, so that it can be said which of two equal elements goes first.
-/
namespace OsispLabs.Lib

/-- The run that an element comes from. -/
inductive Side where
  | first
  | second
  deriving DecidableEq, Repr

variable {α : Type*}

/-- The elements of one side, in their order. -/
def fromSide (side : Side) (tagged : List (Side × α)) : List α :=
  (tagged.filter fun a => decide (a.1 = side)).map Prod.snd

/-- `tagged` consists of the elements of both runs, with the order inside each run kept. -/
structure Interleaves (xs ys : List α) (tagged : List (Side × α)) : Prop where
  first : fromSide .first tagged = xs
  second : fromSide .second tagged = ys

/-- The merge, where `lt x y` says that `x` of the first run goes before `y` of the second. -/
def mergeTagged (lt : α → α → Prop) [DecidableRel lt] : List α → List α → List (Side × α)
  | [], ys => ys.map fun y => (.second, y)
  | xs, [] => xs.map fun x => (.first, x)
  | x :: xs, y :: ys =>
    if lt x y then (.first, x) :: mergeTagged lt xs (y :: ys)
    else (.second, y) :: mergeTagged lt (x :: xs) ys

section Interleaves

variable {xs ys : List α} {tagged : List (Side × α)}

theorem fromSide_cons (side : Side) (a : Side × α) (tagged : List (Side × α)) :
    fromSide side (a :: tagged) =
      if a.1 = side then a.2 :: fromSide side tagged else fromSide side tagged := by
  by_cases h : a.1 = side <;> simp [fromSide, h]

theorem fromSide_map_self (side : Side) (xs : List α) :
    fromSide side (xs.map fun x => (side, x)) = xs := by
  induction xs with
  | nil => rfl
  | cons x xs ih => rw [List.map_cons, fromSide_cons, if_pos rfl, ih]

theorem fromSide_map_ne {side other : Side} (h : other ≠ side) (xs : List α) :
    fromSide side (xs.map fun x => (other, x)) = [] := by
  induction xs with
  | nil => rfl
  | cons x xs ih => rw [List.map_cons, fromSide_cons, if_neg h, ih]

theorem mem_fromSide {side : Side} {a : α} : a ∈ fromSide side tagged ↔ (side, a) ∈ tagged := by
  simp [fromSide]

/-- An interleaving of two runs is a permutation of them. -/
theorem Interleaves.perm (h : Interleaves xs ys tagged) :
    (tagged.map Prod.snd).Perm (xs ++ ys) := by
  have hnot : (fun a : Side × α => !decide (a.1 = .first)) = fun a => decide (a.1 = .second) := by
    funext ⟨side, a⟩
    cases side <;> rfl
  have hperm := (List.filter_append_perm (fun a => decide (a.1 = .first)) tagged).map Prod.snd
  rw [List.map_append, hnot] at hperm
  have hboth : fromSide .first tagged ++ fromSide .second tagged = xs ++ ys := by
    rw [h.first, h.second]
  rw [← hboth]
  exact hperm.symm

theorem Interleaves.mem_first (h : Interleaves xs ys tagged) {a : α}
    (ha : (Side.first, a) ∈ tagged) : a ∈ xs := by
  rw [← h.first]
  exact mem_fromSide.mpr ha

theorem Interleaves.mem_second (h : Interleaves xs ys tagged) {a : α}
    (ha : (Side.second, a) ∈ tagged) : a ∈ ys := by
  rw [← h.second]
  exact mem_fromSide.mpr ha

end Interleaves

section Merge

variable {lt : α → α → Prop} [DecidableRel lt]

theorem mergeTagged_interleaves (xs ys : List α) : Interleaves xs ys (mergeTagged lt xs ys) := by
  have hfirst : Side.second ≠ Side.first := by decide
  have hsecond : Side.first ≠ Side.second := by decide
  induction xs, ys using mergeTagged.induct lt with
  | case1 ys =>
    rw [mergeTagged]
    exact ⟨fromSide_map_ne hfirst ys, fromSide_map_self _ ys⟩
  | case2 xs h =>
    rw [mergeTagged]
    · exact ⟨fromSide_map_self _ xs, fromSide_map_ne hsecond xs⟩
    · exact h
  | case3 x xs y ys hlt ih =>
    rw [mergeTagged, if_pos hlt]
    constructor
    · rw [fromSide_cons, if_pos rfl, ih.first]
    · rw [fromSide_cons, if_neg hsecond, ih.second]
  | case4 x xs y ys hnot ih =>
    rw [mergeTagged, if_neg hnot]
    constructor
    · rw [fromSide_cons, if_neg hfirst, ih.first]
    · rw [fromSide_cons, if_pos rfl, ih.second]

variable {le : α → α → Prop} {xs ys : List α}

/-- A relation between a marked element and all that follow it in the merge, if it holds for the
element in front of the elements of both runs. -/
theorem forall_mem_mergeTagged {P : Side × α → Prop} (h1 : ∀ x ∈ xs, P (.first, x))
    (h2 : ∀ y ∈ ys, P (.second, y)) : ∀ a ∈ mergeTagged lt xs ys, P a := by
  have hmerge : Interleaves xs ys (mergeTagged lt xs ys) := mergeTagged_interleaves xs ys
  rintro ⟨side, a⟩ ha
  cases side with
  | first => exact h1 a (hmerge.mem_first ha)
  | second => exact h2 a (hmerge.mem_second ha)

omit [DecidableRel lt]

/-- What the merge needs of its order, for the elements of the two runs. -/
structure MergeOrder (lt le : α → α → Prop) (xs ys : List α) : Prop where
  trans : ∀ {a b c}, le a b → le b c → le a c
  le_of_lt : ∀ {x y}, x ∈ xs → y ∈ ys → lt x y → le x y
  not_le_of_lt : ∀ {x y}, x ∈ xs → y ∈ ys → lt x y → ¬ le y x
  le_of_not_lt : ∀ {x y}, x ∈ xs → y ∈ ys → ¬ lt x y → le y x

theorem MergeOrder.mono {xs' ys' : List α} (h : MergeOrder lt le xs ys) (hxs : xs' ⊆ xs)
    (hys : ys' ⊆ ys) : MergeOrder lt le xs' ys' where
  trans := h.trans
  le_of_lt hx hy := h.le_of_lt (hxs hx) (hys hy)
  not_le_of_lt hx hy := h.not_le_of_lt (hxs hx) (hys hy)
  le_of_not_lt hx hy := h.le_of_not_lt (hxs hx) (hys hy)

/-- The order of two marked elements in the merge: sorted, and of equal elements of the two runs
the one of the second run goes first. -/
def Before (le : α → α → Prop) (a b : Side × α) : Prop :=
  le a.2 b.2 ∧ (a.1 = .first → b.1 = .second → ¬ le b.2 a.2)

/-- The first element of a sorted run comes before the others. -/
theorem eq_or_rel_of_mem {a b : α} (h : (a :: xs).Pairwise le) (hb : b ∈ a :: xs) :
    b = a ∨ le a b :=
  (List.mem_cons.mp hb).imp id ((List.pairwise_cons.mp h).1 b)

theorem pairwise_map_before (side : Side) (h : xs.Pairwise le) :
    (xs.map fun x => (side, x)).Pairwise (Before le) := by
  rw [List.pairwise_map]
  exact h.imp fun hle => ⟨hle, by rintro rfl hside; cases hside⟩

/-- The merge of two sorted runs is sorted, and takes equal elements from the second run first. -/
theorem pairwise_mergeTagged [DecidableRel lt] (h : MergeOrder lt le xs ys)
    (hxs : xs.Pairwise le) (hys : ys.Pairwise le) :
    (mergeTagged lt xs ys).Pairwise (Before le) := by
  induction xs, ys using mergeTagged.induct lt with
  | case1 ys =>
    rw [mergeTagged]
    exact pairwise_map_before .second hys
  | case2 xs hnil =>
    rw [mergeTagged]
    · exact pairwise_map_before .first hxs
    · exact hnil
  | case3 x xs y ys hlt ih =>
    obtain ⟨hx, hrest⟩ := List.pairwise_cons.mp hxs
    have hle : le x y := h.le_of_lt List.mem_cons_self List.mem_cons_self hlt
    have hnot : ¬ le y x := h.not_le_of_lt List.mem_cons_self List.mem_cons_self hlt
    have hsmaller := h.mono (List.subset_cons_self x xs) (List.Subset.refl _)
    rw [mergeTagged, if_pos hlt, List.pairwise_cons]
    refine ⟨forall_mem_mergeTagged ?_ ?_, ih hsmaller hrest hys⟩
    · intro x' hx'
      exact ⟨hx x' hx', fun _ hside => by cases hside⟩
    · intro y' hy'
      rcases eq_or_rel_of_mem hys hy' with rfl | hyy
      · exact ⟨hle, fun _ _ => hnot⟩
      · exact ⟨h.trans hle hyy, fun _ _ hback => hnot (h.trans hyy hback)⟩
  | case4 x xs y ys hnot ih =>
    obtain ⟨hy, hrest⟩ := List.pairwise_cons.mp hys
    have hle : le y x := h.le_of_not_lt List.mem_cons_self List.mem_cons_self hnot
    have hsmaller := h.mono (List.Subset.refl _) (List.subset_cons_self y ys)
    rw [mergeTagged, if_neg hnot, List.pairwise_cons]
    refine ⟨forall_mem_mergeTagged ?_ ?_, ih hsmaller hxs hrest⟩
    · intro x' hx'
      refine ⟨?_, fun hside => by cases hside⟩
      rcases eq_or_rel_of_mem hxs hx' with rfl | hxx
      · exact hle
      · exact h.trans hle hxx
    · intro y' hy'
      exact ⟨hy y' hy', fun hside => by cases hside⟩

end Merge

end OsispLabs.Lib
