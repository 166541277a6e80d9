import Mathlib.Data.List.Basic
import Mathlib.Logic.Function.Basic

/-!
# A list cut into blocks

A list is cut into blocks of equal width, and a loop, or several threads, rewrite some of the
blocks. The effect is a function of the set of blocks that are done, not of their order.
-/
namespace OsispLabs.Lib

variable {α : Type*}

/-- The `len` elements from `start` on. -/
def window (xs : List α) (start len : ℕ) : List α := (xs.drop start).take len

/-- `xs` overwritten by `ys` from `start` on. -/
def overwrite (xs : List α) (start : ℕ) (ys : List α) : List α :=
  xs.take start ++ (ys ++ xs.drop (start + ys.length))

/-- The first `n` blocks of `w` elements, with `f` applied to those that `p` selects. -/
def mapBlocks (f : List α → List α) (w : ℕ) : ℕ → (ℕ → Bool) → List α → List α
  | 0, _, xs => xs
  | n + 1, p, xs =>
    (if p 0 then f (xs.take w) else xs.take w) ++
      mapBlocks f w n (fun i => p (i + 1)) (xs.drop w)

section Window

@[simp] theorem window_length {xs : List α} {start len : ℕ} (h : start + len ≤ xs.length) :
    (window xs start len).length = len := by
  simp [window]
  omega

theorem window_zero (xs : List α) (len : ℕ) : window xs 0 len = xs.take len := by
  simp [window]

theorem window_add (xs : List α) (start off len : ℕ) :
    window xs (start + off) len = window (xs.drop start) off len := by
  simp [window]

theorem take_window (xs : List α) (start : ℕ) {k len : ℕ} (h : k ≤ len) :
    (window xs start len).take k = window xs start k := by
  simp [window, List.take_take, Nat.min_eq_left h]

theorem drop_window (xs : List α) (start k len : ℕ) :
    (window xs start (k + len)).drop k = window xs (start + k) len := by
  simp [window, List.drop_take]

theorem drop_window_self (xs : List α) (start len : ℕ) : (window xs start len).drop len = [] := by
  simp [window]

theorem window_window (xs : List α) (start : ℕ) {off k len : ℕ} (h : off + k ≤ len) :
    window (window xs start len) off k = window xs (start + off) k := by
  have hle : k ≤ len - off := by omega
  simp [window, List.drop_take, List.take_take, Nat.min_eq_left hle]

/-- The part of a window behind a position inside it. -/
theorem drop_window_eq_cons {xs : List α} {start len i : ℕ} {x : α} (hi : i < len)
    (hx : xs[start + i]? = some x) :
    (window xs start len).drop i = x :: (window xs start len).drop (i + 1) := by
  have hget : (window xs start len)[i]? = some x := by
    rw [window, List.getElem?_take_of_lt hi, List.getElem?_drop, hx]
  rw [List.drop_eq_getElem?_toList_append, hget]
  rfl

theorem overwrite_add (xs ys : List α) (start off : ℕ) :
    overwrite xs (start + off) ys = xs.take start ++ overwrite (xs.drop start) off ys := by
  simp [overwrite, List.take_add, Nat.add_assoc]

theorem overwrite_zero (xs ys : List α) : overwrite xs 0 ys = ys ++ xs.drop ys.length := by
  simp [overwrite]

/-- Two windows side by side. -/
theorem window_append (xs : List α) (start k len : ℕ) :
    window xs start k ++ window xs (start + k) len = window xs start (k + len) := by
  have htake := take_window xs start (Nat.le_add_right k len)
  have hdrop := drop_window xs start k len
  rw [← htake, ← hdrop, List.take_append_drop]

/-- What was written. -/
theorem window_overwrite {xs ys : List α} {start : ℕ} (h : start ≤ xs.length) :
    window (overwrite xs start ys) start ys.length = ys := by
  have hstart : (xs.take start).length = start := List.length_take_of_le h
  rw [window, overwrite, List.drop_left' hstart, List.take_left' rfl]

/-- What was not written. -/
theorem getElem?_overwrite_of_outside {xs ys : List α} {start p : ℕ}
    (h : start + ys.length ≤ xs.length) (hp : p < start ∨ start + ys.length ≤ p) :
    (overwrite xs start ys)[p]? = xs[p]? := by
  have hstart : (xs.take start).length = start := List.length_take_of_le (by omega)
  rcases hp with hp | hp
  · rw [overwrite, List.getElem?_append_left (by omega), List.getElem?_take_of_lt hp]
  · rw [overwrite, List.getElem?_append_right (by omega), List.getElem?_append_right (by omega),
      List.getElem?_drop, hstart]
    congr 1
    omega

end Window

section MapBlocks

variable {f : List α → List α} {w n : ℕ} {p : ℕ → Bool} {xs : List α}

theorem mapBlocks_length (hf : ∀ ys, (f ys).length = ys.length) :
    (mapBlocks f w n p xs).length = xs.length := by
  induction n generalizing p xs with
  | zero => rfl
  | succ n ih =>
    by_cases h : p 0 <;> simp [mapBlocks, h, hf, ih] <;> omega

/-- Only the answers of `p` below `n` matter. -/
theorem mapBlocks_congr {q : ℕ → Bool} (h : ∀ i < n, p i = q i) :
    mapBlocks f w n p xs = mapBlocks f w n q xs := by
  induction n generalizing p q xs with
  | zero => rfl
  | succ n ih =>
    have htail : mapBlocks f w n (fun i => p (i + 1)) (xs.drop w) =
        mapBlocks f w n (fun i => q (i + 1)) (xs.drop w) := by
      apply ih
      intro i hi
      exact h (i + 1) (by omega)
    simp [mapBlocks, h 0 (Nat.succ_pos n), htail]

theorem mapBlocks_none (h : ∀ i < n, p i = false) : mapBlocks f w n p xs = xs := by
  induction n generalizing p xs with
  | zero => rfl
  | succ n ih =>
    have htail : mapBlocks f w n (fun i => p (i + 1)) (xs.drop w) = xs.drop w := by
      apply ih
      intro i hi
      exact h (i + 1) (by omega)
    simp [mapBlocks, h 0 (Nat.succ_pos n), htail]

/-- The first block of the result. -/
theorem take_mapBlocks_succ (hf : ∀ ys, (f ys).length = ys.length) (hw : w ≤ xs.length) :
    (mapBlocks f w (n + 1) p xs).take w = if p 0 then f (xs.take w) else xs.take w := by
  apply List.take_left'
  by_cases h : p 0 <;> simp [h, hf, hw]

/-- The blocks of the result after the first one. -/
theorem drop_mapBlocks_succ (hf : ∀ ys, (f ys).length = ys.length) (hw : w ≤ xs.length) :
    (mapBlocks f w (n + 1) p xs).drop w =
      mapBlocks f w n (fun i => p (i + 1)) (xs.drop w) := by
  apply List.drop_left'
  by_cases h : p 0 <;> simp [h, hf, hw]

/-- Each block of the result is the old block, or `f` of it. -/
theorem window_mapBlocks (hf : ∀ ys, (f ys).length = ys.length) (hlen : n * w ≤ xs.length) {i : ℕ}
    (hi : i < n) : window (mapBlocks f w n p xs) (i * w) w =
      if p i then f (window xs (i * w) w) else window xs (i * w) w := by
  induction n generalizing p xs i with
  | zero => omega
  | succ n ih =>
    rw [Nat.succ_mul] at hlen
    cases i with
    | zero =>
      simp only [Nat.zero_mul, window_zero]
      exact take_mapBlocks_succ hf (by omega)
    | succ i =>
      rw [Nat.succ_mul, Nat.add_comm (i * w), window_add, window_add,
        drop_mapBlocks_succ hf (by omega)]
      exact ih (by simp; omega) (by omega)

/-- Rewriting one more block. -/
theorem overwrite_mapBlocks (hf : ∀ ys, (f ys).length = ys.length) (hlen : n * w ≤ xs.length)
    {i : ℕ} (hi : i < n) :
    overwrite (mapBlocks f w n p xs) (i * w) (f (window xs (i * w) w)) =
      mapBlocks f w n (Function.update p i true) xs := by
  induction n generalizing p xs i with
  | zero => omega
  | succ n ih =>
    rw [Nat.succ_mul] at hlen
    cases i with
    | zero =>
      have hw : (f (xs.take w)).length = w := by
        simp [hf]
        omega
      rw [Nat.zero_mul, window_zero, overwrite_zero, hw, drop_mapBlocks_succ hf (by omega)]
      simp [mapBlocks]
    | succ i =>
      have hdone : (fun j => Function.update p (i + 1) true (j + 1)) =
          Function.update (fun j => p (j + 1)) i true := by
        funext j
        simp [Function.update_apply]
      rw [Nat.succ_mul, Nat.add_comm (i * w), window_add, overwrite_add,
        take_mapBlocks_succ hf (by omega), drop_mapBlocks_succ hf (by omega),
        ih (by simp; omega) (by omega)]
      simp [mapBlocks, hdone]

/-- What lies behind the blocks stays. -/
theorem mapBlocks_append (hlen : n * w ≤ xs.length) (ys : List α) :
    mapBlocks f w n p (xs ++ ys) = mapBlocks f w n p xs ++ ys := by
  induction n generalizing p xs with
  | zero => rfl
  | succ n ih =>
    rw [Nat.succ_mul] at hlen
    rw [mapBlocks, mapBlocks, List.take_append_of_le_length (by omega),
      List.drop_append_of_le_length (by omega), ih (by simp; omega), List.append_assoc]

/-- One more block at the end. -/
theorem mapBlocks_snoc (hxs : xs.length = n * w) {ys : List α} (hys : ys.length = w) :
    mapBlocks f w (n + 1) p (xs ++ ys) = mapBlocks f w n p xs ++ if p n then f ys else ys := by
  induction n generalizing p xs with
  | zero =>
    have hnil : xs = [] := List.eq_nil_of_length_eq_zero (by omega)
    simp [mapBlocks, hnil, List.take_of_length_le (Nat.le_of_eq hys),
      List.drop_of_length_le (Nat.le_of_eq hys)]
  | succ n ih =>
    rw [Nat.succ_mul] at hxs
    rw [mapBlocks, List.take_append_of_le_length (by omega),
      List.drop_append_of_le_length (by omega), ih (by rw [List.length_drop]; omega),
      mapBlocks, List.append_assoc]

/-- Where `f` changes no block. -/
theorem mapBlocks_eq_self (h : ∀ i < n, f (window xs (i * w) w) = window xs (i * w) w) :
    mapBlocks f w n p xs = xs := by
  induction n generalizing p xs with
  | zero => rfl
  | succ n ih =>
    have hhead := h 0 (Nat.succ_pos n)
    rw [Nat.zero_mul, window_zero] at hhead
    have htail : ∀ i < n, f (window (xs.drop w) (i * w) w) = window (xs.drop w) (i * w) w := by
      intro i hi
      have hblock := h (i + 1) (by omega)
      rwa [Nat.succ_mul, Nat.add_comm (i * w), window_add] at hblock
    rw [mapBlocks, ih htail, hhead, ite_self, List.take_append_drop]

/-- What `f` only produces, and what holds behind the blocks, holds everywhere. -/
theorem mapBlocks_forall {P : α → Prop} (hf : ∀ ys, ∀ x ∈ f ys, P x)
    (h : ∀ x ∈ xs.drop (n * w), P x) : ∀ x ∈ mapBlocks f w n (fun _ => true) xs, P x := by
  induction n generalizing xs with
  | zero => simpa [mapBlocks] using h
  | succ n ih =>
    have htail : ∀ x ∈ mapBlocks f w n (fun _ => true) (xs.drop w), P x := by
      apply ih
      simpa [Nat.succ_mul, Nat.add_comm] using h
    intro x hx
    rcases List.mem_append.mp hx with hhead | hrest
    · exact hf _ x hhead
    · exact htail x hrest

theorem mapBlocks_perm (hf : ∀ ys, (f ys).Perm ys) : (mapBlocks f w n p xs).Perm xs := by
  induction n generalizing p xs with
  | zero => exact List.Perm.refl xs
  | succ n ih =>
    have hhead : (if p 0 then f (xs.take w) else xs.take w).Perm (xs.take w) := by
      by_cases h : p 0 <;> simp [h, hf]
    have htail : (mapBlocks f w n (fun i => p (i + 1)) (xs.drop w)).Perm (xs.drop w) := ih
    have happend := hhead.append htail
    rwa [List.take_append_drop] at happend

end MapBlocks

end OsispLabs.Lib
