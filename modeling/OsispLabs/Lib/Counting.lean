import Mathlib.Algebra.BigOperators.Group.Finset.Basic
import Mathlib.Algebra.Order.BigOperators.Group.Finset
import Mathlib.Data.Fintype.Basic

/-!
# Counting over a finite family of threads

The total weight of the positions of all threads, and how it changes when one thread moves.
-/
namespace OsispLabs.Lib

variable {ι β : Type*} [Fintype ι]

/-- The sum of `w` over the positions of all members of a family. -/
def total (w : β → ℕ) (f : ι → β) : ℕ := ∑ i, w (f i)

theorem total_eq_zero {w : β → ℕ} {f : ι → β} (h : ∀ i, w (f i) = 0) : total w f = 0 :=
  Finset.sum_eq_zero fun i _ => h i

theorem apply_le_total (w : β → ℕ) (f : ι → β) (i : ι) : w (f i) ≤ total w f :=
  Finset.single_le_sum (f := fun i => w (f i)) (fun _ _ => Nat.zero_le _) (Finset.mem_univ i)

theorem total_mono {v w : β → ℕ} (h : ∀ b, v b ≤ w b) (f : ι → β) : total v f ≤ total w f :=
  Finset.sum_le_sum fun i _ => h (f i)

theorem total_const {k : ℕ} {w : β → ℕ} {f : ι → β} (h : ∀ i, w (f i) = k) :
    total w f = Fintype.card ι * k := by
  simp [total, h]

theorem total_le {k : ℕ} {w : β → ℕ} (h : ∀ b, w b ≤ k) (f : ι → β) :
    total w f ≤ Fintype.card ι * k :=
  (total_mono h f).trans (Nat.le_of_eq (total_const (w := fun _ => k) fun _ => rfl))

theorem total_congr {γ : Type*} {v : β → ℕ} {w : γ → ℕ} {f : ι → β} {g : ι → γ}
    (h : ∀ i, v (f i) = w (g i)) : total v f = total w g :=
  Finset.sum_congr rfl fun i _ => h i

theorem total_lt {v w : β → ℕ} {f : ι → β} (h : ∀ i, v (f i) ≤ w (f i)) {i : ι}
    (hi : v (f i) < w (f i)) : total v f < total w f :=
  Finset.sum_lt_sum (fun j _ => h j) ⟨i, Finset.mem_univ i, hi⟩

theorem total_add (v w : β → ℕ) (f : ι → β) :
    total (fun b => v b + w b) f = total v f + total w f :=
  Finset.sum_add_distrib

theorem total_le_total {γ : Type*} {v : β → ℕ} {w : γ → ℕ} {f : ι → β} {g : ι → γ}
    (h : ∀ i, v (f i) ≤ w (g i)) : total v f ≤ total w g :=
  Finset.sum_le_sum fun i _ => h i

theorem total_mul (k : ℕ) (w : β → ℕ) (f : ι → β) :
    total (fun b => k * w b) f = k * total w f :=
  Finset.sum_nsmul Finset.univ k fun i => w (f i)

theorem total_le_linear {k l : ℕ} {v w : β → ℕ} (h : ∀ b, v b ≤ k * w b + l) (f : ι → β) :
    total v f ≤ k * total w f + Fintype.card ι * l := by
  rw [← total_mul, ← total_const (w := fun _ : β => l) (f := f) fun _ => rfl, ← total_add]
  exact total_mono h f

theorem exists_of_total_pos {w : β → ℕ} {f : ι → β} (h : 0 < total w f) : ∃ i, 0 < w (f i) := by
  by_contra hn
  rw [total_eq_zero fun i => Nat.eq_zero_of_not_pos fun hi => hn ⟨i, hi⟩] at h
  exact Nat.lt_irrefl 0 h

/-- Moving one member exchanges its old weight for its new one. -/
theorem total_update [DecidableEq ι] (w : β → ℕ) (f : ι → β) (i : ι) (b : β) :
    total w (Function.update f i b) + w (f i) = total w f + w b := by
  have hrest : ∑ j ∈ Finset.univ.erase i, w (Function.update f i b j) =
      ∑ j ∈ Finset.univ.erase i, w (f j) := by
    apply Finset.sum_congr rfl
    intro j hj
    rw [Function.update_of_ne (Finset.ne_of_mem_erase hj)]
  unfold total
  rw [← Finset.add_sum_erase _ _ (Finset.mem_univ i),
    ← Finset.add_sum_erase _ _ (Finset.mem_univ i),
    hrest, Function.update_self]
  omega

/-- Two members of a family of total weight one are the same member. -/
theorem eq_of_total_le_one [DecidableEq ι] {w : β → ℕ} {f : ι → β} (h : total w f ≤ 1) {i j : ι}
    (hi : 0 < w (f i)) (hj : 0 < w (f j)) : i = j := by
  by_contra hne
  have hsum : w (f i) + w (f j) ≤ total w f := by
    rw [← Finset.sum_pair (f := fun k => w (f k)) hne]
    exact Finset.sum_le_sum_of_subset (Finset.subset_univ _)
  omega

/-- The members with a flag and those without it make up the family. -/
theorem total_toNat_add_not (f : ι → Bool) :
    total Bool.toNat f + total (fun b => (!b).toNat) f = Fintype.card ι := by
  have hone : ∀ i, (f i).toNat + (!f i).toNat = 1 := fun i => by cases f i <;> rfl
  rw [total, total, ← Finset.sum_add_distrib]
  simp [hone]

end OsispLabs.Lib
