import Mathlib.Data.List.Basic
import Mathlib.Data.List.TakeWhile

/-!
# Terminated strings

A string ends with a terminator, which is none of its characters. The terminator may be read, but
nothing beyond it.
-/
namespace OsispLabs.Lib

variable {α : Type*} {nul : α}

/-- The characters in front of the terminator `nul`. -/
structure CString (nul : α) where
  chars : List α
  noNul : nul ∉ chars

namespace CString

/-- `strlen` -/
def length (s : CString nul) : ℕ := s.chars.length

/-- `s[i]`; `none` beyond the terminator. -/
def read (s : CString nul) (i : ℕ) : Option α := if i = s.length then some nul else s.chars[i]?

/-- `s + i`; `none` beyond the terminator. -/
def suffix (s : CString nul) (i : ℕ) : Option (CString nul) :=
  if i ≤ s.length then some ⟨s.chars.drop i, fun h => s.noNul (List.mem_of_mem_drop h)⟩ else none

variable {s : CString nul} {c : α} {i : ℕ}

@[simp]
theorem read_length (s : CString nul) : s.read s.length = some nul := by
  simp [read]

theorem read_of_lt (h : i < s.length) : s.read i = some (s.chars.get ⟨i, h⟩) := by
  have hne : i ≠ s.length := by omega
  rw [read, if_neg hne, List.get_eq_getElem]
  exact List.getElem?_eq_getElem h

theorem read_of_le (h : i ≤ s.length) : ∃ c, s.read i = some c := by
  rcases Nat.lt_or_eq_of_le h with hlt | rfl
  · exact ⟨_, read_of_lt hlt⟩
  · exact ⟨nul, s.read_length⟩

/-- Any character but the terminator is read inside the string. -/
theorem read_eq_some_iff (hc : c ≠ nul) : s.read i = some c ↔ s.chars[i]? = some c := by
  rw [read]
  split_ifs with h
  · have hnone : s.chars[i]? = none := List.getElem?_eq_none (Nat.le_of_eq h.symm)
    simp [hnone, hc.symm]
  · rfl

theorem lt_of_read (h : s.read i = some c) (hc : c ≠ nul) : i < s.length := by
  rw [read_eq_some_iff hc] at h
  exact (List.getElem?_eq_some_iff.mp h).1

theorem read_eq_nul_iff : s.read i = some nul ↔ i = s.length := by
  constructor
  · intro h
    by_contra hne
    rw [read, if_neg hne] at h
    exact s.noNul (List.mem_of_getElem? h)
  · rintro rfl
    exact s.read_length

theorem suffix_of_le (h : i ≤ s.length) : (s.suffix i).map chars = some (s.chars.drop i) := by
  rw [suffix, if_pos h, Option.map_some]

end CString

section Buffer
variable [DecidableEq α] {buffer : List α} {i : ℕ}

/-- The string that a buffer holds: the characters in front of the first terminator. -/
def untilNul (nul : α) (buffer : List α) : List α := buffer.takeWhile (· ≠ nul)

theorem untilNul_isPrefix (nul : α) (buffer : List α) : untilNul nul buffer <+: buffer :=
  List.takeWhile_prefix _

theorem untilNul_eq_self_iff : untilNul nul buffer = buffer ↔ nul ∉ buffer := by
  rw [untilNul, List.takeWhile_eq_self_iff]
  constructor
  · intro h hmem
    simpa using h _ hmem
  · intro h c hc
    have hne : c ≠ nul := fun heq => h (heq ▸ hc)
    simpa using hne

/-- What stands behind the first terminator is not part of the string. -/
theorem untilNul_append_cons (h : nul ∉ buffer) (tail : List α) :
    untilNul nul (buffer ++ nul :: tail) = buffer := by
  have hkeep : ∀ c ∈ buffer, decide (c ≠ nul) = true := by
    intro c hc
    have hne : c ≠ nul := fun heq => h (heq ▸ hc)
    simpa using hne
  rw [untilNul, List.takeWhile_append_of_pos hkeep]
  simp

theorem untilNul_append (h : nul ∈ buffer) (tail : List α) :
    untilNul nul (buffer ++ tail) = untilNul nul buffer := by
  induction buffer with
  | nil => cases h
  | cons c buffer ih =>
    by_cases hc : c = nul
    · simp [untilNul, hc]
    · have hmem := (List.mem_cons.mp h).resolve_left (Ne.symm hc)
      have hkeep : decide (c ≠ nul) = true := by simpa using hc
      simp only [untilNul, List.cons_append, List.takeWhile_cons, hkeep, if_true]
      exact congrArg (c :: ·) (ih hmem)

theorem untilNul_length_le (h : buffer[i]? = some nul) : (untilNul nul buffer).length ≤ i := by
  by_contra hlong
  have hi : i < (buffer.takeWhile (· ≠ nul)).length := Nat.lt_of_not_le hlong
  obtain ⟨hlt, hnul⟩ := List.getElem?_eq_some_iff.mp h
  have hkept := List.mem_takeWhile_imp (List.getElem_mem hi)
  rw [(List.takeWhile_prefix _).getElem hi, hnul] at hkept
  simp at hkept

end Buffer

/-- One more character in front is one more character to compare. -/
theorem concat_prefix_iff {xs ys : List α} {a : α} :
    xs ++ [a] <+: ys ↔ xs <+: ys ∧ ys[xs.length]? = some a := by
  constructor
  · rintro ⟨rest, rfl⟩
    rw [List.append_assoc]
    constructor
    · exact List.prefix_append _ _
    · rw [List.getElem?_append_right (Nat.le_refl _), Nat.sub_self]
      rfl
  · rintro ⟨⟨rest, rfl⟩, hy⟩
    rw [List.getElem?_append_right (Nat.le_refl _), Nat.sub_self] at hy
    cases rest with
    | nil => simp at hy
    | cons y rest =>
      have hya : y = a := by simpa using hy
      exact ⟨rest, by rw [hya, List.append_assoc]; rfl⟩

theorem take_succ_prefix_iff {xs ys : List α} {i : ℕ} {a : α} (ha : xs[i]? = some a) :
    xs.take (i + 1) <+: ys ↔ xs.take i <+: ys ∧ ys[i]? = some a := by
  obtain ⟨hi, rfl⟩ := List.getElem?_eq_some_iff.mp ha
  have hlen : (xs.take i).length = i := List.length_take_of_le (Nat.le_of_lt hi)
  rw [← List.take_append_getElem hi, concat_prefix_iff, hlen]

end OsispLabs.Lib
