import Mathlib.Data.List.Basic

/-!
# Descriptor tables

A table maps small numbers to open objects. Opening takes the lowest unused number, as the
kernel does for files and sockets, and closing makes a number available again.
-/
namespace OsispLabs.Lib

/-- The open object of each descriptor; numbers past the end are unused. -/
abbrev Table (ω : Type*) := List (Option ω)

namespace Table

variable {ω : Type*}

def lookup (t : Table ω) (fd : ℕ) : Option ω := t.getD fd none

/-- The lowest unused descriptor. -/
def lowest (t : Table ω) : ℕ := t.findIdx Option.isNone

def opened (t : Table ω) (o : ω) : Table ω :=
  if t.lowest < t.length then t.set t.lowest (some o) else t ++ [some o]

def closed (t : Table ω) (fd : ℕ) : Table ω := t.set fd none

theorem lowest_le_length (t : Table ω) : t.lowest ≤ t.length := List.findIdx_le_length

theorem lookup_of_length_le {t : Table ω} {fd : ℕ} (h : t.length ≤ fd) : t.lookup fd = none := by
  rw [lookup, List.getD_eq_getElem?_getD, List.getElem?_eq_none h, Option.getD_none]

theorem lookup_of_lt {t : Table ω} {fd : ℕ} (h : fd < t.length) : t.lookup fd = t[fd] := by
  rw [lookup, List.getD_eq_getElem?_getD, List.getElem?_eq_getElem h, Option.getD_some]

theorem lookup_lowest (t : Table ω) : t.lookup t.lowest = none := by
  by_cases h : t.lowest < t.length
  · rw [lookup_of_lt h]
    have hnone : (t[t.lowest]).isNone = true := List.findIdx_getElem (w := h)
    exact Option.isNone_iff_eq_none.mp hnone
  · exact lookup_of_length_le (Nat.le_of_not_lt h)

theorem lookup_opened (t : Table ω) (o : ω) (fd : ℕ) :
    (t.opened o).lookup fd = if fd = t.lowest then some o else t.lookup fd := by
  unfold opened
  by_cases hlow : t.lowest < t.length
  · rw [if_pos hlow, lookup, List.getD_eq_getElem?_getD, List.getElem?_set]
    by_cases hfd : t.lowest = fd
    · rw [if_pos hfd, if_pos hlow, if_pos hfd.symm]
      rfl
    · rw [if_neg hfd, if_neg (Ne.symm hfd), lookup, List.getD_eq_getElem?_getD]
  · have hlen : t.lowest = t.length := Nat.le_antisymm t.lowest_le_length (Nat.le_of_not_lt hlow)
    rw [if_neg hlow, lookup, List.getD_eq_getElem?_getD, hlen]
    by_cases hfd : fd = t.length
    · rw [if_pos hfd, hfd, List.getElem?_concat_length]
      rfl
    · rw [if_neg hfd, lookup, List.getD_eq_getElem?_getD]
      by_cases hlt : fd < t.length
      · rw [List.getElem?_append_left hlt]
      · rw [List.getElem?_eq_none (by simp; omega), List.getElem?_eq_none (by omega)]

theorem lookup_closed (t : Table ω) (fd fd' : ℕ) :
    (t.closed fd).lookup fd' = if fd' = fd then none else t.lookup fd' := by
  unfold closed
  rw [lookup, List.getD_eq_getElem?_getD, List.getElem?_set]
  by_cases hfd : fd = fd'
  · rw [if_pos hfd, if_pos hfd.symm]
    split <;> rfl
  · rw [if_neg hfd, if_neg (Ne.symm hfd), lookup, List.getD_eq_getElem?_getD]

/-- Opening keeps what is open. -/
theorem lookup_opened_of_some {t : Table ω} {o p : ω} {fd : ℕ} (h : t.lookup fd = some p) :
    (t.opened o).lookup fd = some p := by
  rw [lookup_opened, if_neg, h]
  intro he
  rw [he, lookup_lowest] at h
  cases h

theorem lookup_closed_of_ne {t : Table ω} {fd fd' : ℕ} (h : fd' ≠ fd) :
    (t.closed fd).lookup fd' = t.lookup fd' := by
  rw [lookup_closed, if_neg h]

end Table

end OsispLabs.Lib
