import Mathlib.Data.List.Nodup

/-!
# Lists searched by a key

Elements may have a key, and a search returns the first element with a given one. Where no key
occurs twice the order of the list does not matter.
-/
namespace OsispLabs.Lib

variable {α κ : Type*} [DecidableEq κ] {key : α → Option κ} {k : κ} {x : α} {l l' : List α}

/-- Replace the first element that satisfies `p`, or append the new one. -/
def replaceFirst (p : α → Bool) (x : α) : List α → List α
  | [] => [x]
  | y :: l => if p y then x :: l else y :: replaceFirst p x l

theorem find_replaceFirst_same {p : α → Bool} (hx : p x = true) (l : List α) :
    (replaceFirst p x l).find? p = some x := by
  induction l with
  | nil => simp [replaceFirst, hx]
  | cons y l ih =>
    cases hy : p y with
    | true => simp [replaceFirst, hy, hx]
    | false => simp [replaceFirst, hy, ih]

/-- A search for something else does not notice. -/
theorem find_replaceFirst_other {p q : α → Bool} (hx : q x = false)
    (hpq : ∀ y, p y = true → q y = false) (l : List α) :
    (replaceFirst p x l).find? q = l.find? q := by
  induction l with
  | nil => simp [replaceFirst, hx]
  | cons y l ih =>
    cases hy : p y with
    | true => simp [replaceFirst, hy, hx, hpq y hy]
    | false => simp [replaceFirst, hy, List.find?_cons, ih]

theorem filterMap_replaceFirst (hx : key x = some k) (l : List α) :
    (replaceFirst (fun y => key y = some k) x l).filterMap key =
      if k ∈ l.filterMap key then l.filterMap key else l.filterMap key ++ [k] := by
  induction l with
  | nil => simp [replaceFirst, hx]
  | cons y l ih =>
    by_cases hy : key y = some k
    · simp [replaceFirst, hy, hx]
    · rw [replaceFirst, if_neg (by simpa using hy)]
      cases hkey : key y with
      | none => simp only [List.filterMap_cons_none hkey, ih]
      | some j =>
        have hne : k ≠ j := fun h => hy (by rw [hkey, h])
        simp only [List.filterMap_cons_some hkey, ih, List.mem_cons, hne, false_or]
        split_ifs <;> rfl

/-- Replacing by an element with the same key keeps the keys apart. -/
theorem nodup_replaceFirst (hx : key x = some k) (hl : (l.filterMap key).Nodup) :
    ((replaceFirst (fun y => key y = some k) x l).filterMap key).Nodup := by
  rw [filterMap_replaceFirst hx]
  split_ifs with hk
  · exact hl
  · exact List.nodup_append.mpr ⟨hl, List.nodup_singleton k, by
      intro a ha b hb hab
      rw [hab, List.mem_singleton.mp hb] at ha
      exact hk ha⟩

omit [DecidableEq κ] in
theorem eq_of_nodup_keys (hl : (l.filterMap key).Nodup) {y : α} (hx : x ∈ l) (hy : y ∈ l)
    (hxk : key x = some k) (hyk : key y = some k) : x = y := by
  induction l with
  | nil => cases hx
  | cons z l ih =>
    have hnot : ∀ w ∈ l, key w = some k → key z ≠ some k := by
      intro w hw hwk hz
      rw [List.filterMap_cons_some hz, List.nodup_cons] at hl
      exact hl.1 (List.mem_filterMap.mpr ⟨w, hw, hwk⟩)
    have hrest : (l.filterMap key).Nodup := by
      cases hz : key z with
      | none => rwa [List.filterMap_cons_none hz] at hl
      | some j =>
        rw [List.filterMap_cons_some hz] at hl
        exact (List.nodup_cons.mp hl).2
    rcases List.mem_cons.mp hx with hxz | hxl
    · rcases List.mem_cons.mp hy with hyz | hyl
      · exact hxz.trans hyz.symm
      · exact absurd (hxz ▸ hxk) (hnot y hyl hyk)
    · rcases List.mem_cons.mp hy with hyz | hyl
      · exact absurd (hyz ▸ hyk) (hnot x hxl hxk)
      · exact ih hrest hxl hyl

/-- A search by key finds the one element that has it. -/
theorem find_key_eq_some_iff (hl : (l.filterMap key).Nodup) :
    l.find? (fun y => key y = some k) = some x ↔ x ∈ l ∧ key x = some k := by
  constructor
  · intro h
    exact ⟨List.mem_of_find?_eq_some h, by simpa using List.find?_some h⟩
  · rintro ⟨hx, hxk⟩
    obtain ⟨y, hy⟩ : ∃ y, l.find? (fun y => key y = some k) = some y :=
      Option.isSome_iff_exists.mp (List.find?_isSome.mpr ⟨x, hx, by simpa using hxk⟩)
    have hyk : key y = some k := by simpa using List.find?_some hy
    rw [hy, eq_of_nodup_keys hl (List.mem_of_find?_eq_some hy) hx hyk hxk]

theorem find_key_perm (hp : l.Perm l') (hl : (l.filterMap key).Nodup) (k : κ) :
    l'.find? (fun y => key y = some k) = l.find? (fun y => key y = some k) := by
  have hl' : (l'.filterMap key).Nodup := (hp.filterMap key).nodup_iff.mp hl
  refine Option.ext fun x => ?_
  rw [find_key_eq_some_iff hl', find_key_eq_some_iff hl, hp.mem_iff]

end OsispLabs.Lib
