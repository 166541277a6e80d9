import Mathlib.Data.List.Basic
import Mathlib.Data.List.Range
import Mathlib.Logic.Function.Basic
import Mathlib.Tactic.SplitIfs

/-!
# The list held by a circular buffer

A circular buffer of capacity `n` that holds `count` cells from position `head` stands for the
list of these cells in ring order. Positions are taken modulo `n`; the one-wrap form without
division is what index arithmetic in a program computes.
-/
namespace OsispLabs.Lib

variable {β : Type*}

/-- The position `i` places after `head` in ring order, wrapping at most once. -/
def ringIndex (n head i : ℕ) : ℕ := if head + i < n then head + i else head + i - n

theorem add_mod_eq_ringIndex {n head i : ℕ} (hh : head < n) (hi : i ≤ n) :
    (head + i) % n = ringIndex n head i := by
  unfold ringIndex
  split_ifs with h
  · exact Nat.mod_eq_of_lt h
  · rw [Nat.mod_eq_sub_mod (by omega), Nat.mod_eq_of_lt (by omega)]

theorem ringIndex_injective {n head i j : ℕ} (hi : i < n) (hj : j < n)
    (h : ringIndex n head i = ringIndex n head j) : i = j := by
  unfold ringIndex at h
  split_ifs at h <;> omega

/-- Advancing a cursor with an equality test is addition of one modulo the capacity. -/
theorem advance_eq_mod {n i : ℕ} (hi : i < n) : (if i + 1 = n then 0 else i + 1) = (i + 1) % n := by
  split_ifs with h
  · rw [h, Nat.mod_self]
  · exact (Nat.mod_eq_of_lt (by omega)).symm

/-- The `count` cells from `head`, in ring order of capacity `n`. -/
def view (f : ℕ → β) (n head count : ℕ) : List β :=
  (List.range count).map fun i => f ((head + i) % n)

@[simp] theorem view_length (f : ℕ → β) (n head count : ℕ) :
    (view f n head count).length = count := by
  simp [view]

theorem view_congr {f g : ℕ → β} {n m head head' count : ℕ}
    (h : ∀ i < count, f ((head + i) % n) = g ((head' + i) % m)) :
    view f n head count = view g m head' count := by
  apply List.map_congr_left
  intro i hi
  exact h i (List.mem_range.mp hi)

theorem view_succ (f : ℕ → β) (n head count : ℕ) :
    view f n head (count + 1) = view f n head count ++ [f ((head + count) % n)] := by
  simp [view, List.range_succ]

theorem view_cons (f : ℕ → β) (n head count : ℕ) :
    view f n head (count + 1) = f (head % n) :: view f n ((head + 1) % n) count := by
  rw [view, List.range_succ_eq_map, List.map_cons, List.map_map, Nat.add_zero]
  congr 1
  apply List.map_congr_left
  intro i _
  rw [Function.comp_apply, Nat.mod_add_mod, Nat.add_assoc, Nat.add_comm 1 i]

theorem view_getElem? (f : ℕ → β) (n head count i : ℕ) (hi : i < count) :
    (view f n head count)[i]? = some (f ((head + i) % n)) := by
  simp [view, hi]

/-- A cell outside the window can be overwritten. -/
theorem view_update {f : ℕ → β} {n head count p : ℕ} (x : β)
    (hp : ∀ i < count, (head + i) % n ≠ p) :
    view (Function.update f p x) n head count = view f n head count := by
  apply view_congr
  intro i hi
  rw [Function.update_of_ne (hp i hi)]

/-- Writing at the first free cell appends to the list. -/
theorem view_push {f : ℕ → β} {n head count : ℕ} (x : β) (hh : head < n) (hc : count < n) :
    view (Function.update f ((head + count) % n) x) n head (count + 1) =
      view f n head count ++ [x] := by
  rw [view_succ, Function.update_self]
  congr 1
  apply view_update
  intro i hi h
  rw [add_mod_eq_ringIndex hh (by omega), add_mod_eq_ringIndex hh (by omega)] at h
  have := ringIndex_injective (by omega) hc h
  omega

/-- Clearing the first cell and stepping over it removes the first element. -/
theorem view_pop {f : ℕ → β} {n head count : ℕ} (x : β) (hh : head < n) (hc : count < n) :
    f head :: view (Function.update f head x) n ((head + 1) % n) count =
      view f n head (count + 1) := by
  rw [view_cons, Nat.mod_eq_of_lt hh]
  congr 1
  apply view_update
  intro i hi h
  rw [Nat.mod_add_mod, Nat.add_assoc, Nat.add_comm 1 i,
    add_mod_eq_ringIndex hh (by omega)] at h
  unfold ringIndex at h
  split_ifs at h <;> omega

end OsispLabs.Lib
