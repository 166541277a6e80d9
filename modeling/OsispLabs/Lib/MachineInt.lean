import Mathlib.Algebra.Group.Int.Defs
import Mathlib.Algebra.Group.Nat.Defs
import Mathlib.Data.Int.Init

/-!
# C integers

Conversions to `int` and `size_t` wrap; a signed product that does not fit is undefined, and has
no value here.
-/
namespace OsispLabs.Lib

/-- The values of a 32-bit `int`. -/
def IsInt (n : ℤ) : Prop := -2 ^ 31 ≤ n ∧ n < 2 ^ 31

instance (n : ℤ) : Decidable (IsInt n) := inferInstanceAs (Decidable (_ ∧ _))

/-- The values of a 64-bit `long`. -/
def IsLong (n : ℤ) : Prop := -2 ^ 63 ≤ n ∧ n < 2 ^ 63

instance (n : ℤ) : Decidable (IsLong n) := inferInstanceAs (Decidable (_ ∧ _))

/-- Conversion to `int`. -/
def toInt (n : ℤ) : ℤ := Int.bmod n (2 ^ 32)

/-- Conversion to `size_t`. -/
def toSize (n : ℤ) : ℕ := (n % 2 ^ 64).toNat

/-- The product of two `int` values. -/
def intMul (a b : ℤ) : Option ℤ := if IsInt (a * b) then some (a * b) else none

theorem toInt_of_isInt {n : ℤ} (h : IsInt n) : toInt n = n := by
  simp only [IsInt] at h
  simp only [toInt, Int.bmod_def]
  omega

theorem isInt_toInt (n : ℤ) : IsInt (toInt n) := by
  simp only [IsInt, toInt, Int.bmod_def]
  omega

theorem toInt_eq_self {n : ℤ} : toInt n = n ↔ IsInt n :=
  ⟨fun h => h ▸ isInt_toInt n, toInt_of_isInt⟩

theorem toInt_toSize (n : ℤ) : toInt (toSize n) = toInt n := by
  simp only [toInt, toSize, Int.bmod_def]
  omega

/-- Conversion to `int` does not enlarge a natural number. -/
theorem toNat_toInt_le (n : ℕ) : (toInt n).toNat ≤ n := by
  simp only [toInt, Int.bmod_def]
  omega

theorem toSize_of_nonneg {n : ℤ} (h : 0 ≤ n) (hlt : n < 2 ^ 64) : toSize n = n.toNat := by
  simp only [toSize]
  omega

theorem intMul_eq_some {a b c : ℤ} : intMul a b = some c ↔ IsInt (a * b) ∧ a * b = c := by
  by_cases h : IsInt (a * b) <;> simp [intMul, h]

theorem intMul_exact {a b : ℤ} : intMul a b = some (a * b) ↔ IsInt (a * b) := by
  rw [intMul_eq_some, and_iff_left rfl]

/-- A smaller multiple fits if a larger one does. -/
theorem IsInt.of_mul_le {j k : ℕ} {n : ℤ} (h : IsInt (k * n)) (hle : j ≤ k) : IsInt (j * n) := by
  have hcast : (j : ℤ) ≤ k := by omega
  rw [IsInt] at h ⊢
  rcases Int.le_total 0 n with hn | hn
  · have hlow : 0 ≤ (j : ℤ) * n := Int.mul_nonneg (by omega) hn
    have hhigh : (j : ℤ) * n ≤ k * n := Int.mul_le_mul_of_nonneg_right hcast hn
    omega
  · have hlow : (k : ℤ) * n ≤ j * n := Int.mul_le_mul_of_nonpos_right hcast hn
    have hhigh : (j : ℤ) * n ≤ 0 := Int.mul_nonpos_of_nonneg_of_nonpos (by omega) hn
    omega

theorem isInt_max {j k : ℕ} {n : ℤ} :
    IsInt ((max j k : ℕ) * n) ↔ IsInt (j * n) ∧ IsInt (k * n) := by
  constructor
  · intro h
    exact ⟨h.of_mul_le (Nat.le_max_left j k), h.of_mul_le (Nat.le_max_right j k)⟩
  · rintro ⟨hj, hk⟩
    rcases Nat.le_total j k with hle | hle
    · rwa [Nat.max_eq_right hle]
    · rwa [Nat.max_eq_left hle]

theorem isInt_natCast {n : ℕ} : IsInt n ↔ n < 2 ^ 31 := by
  rw [IsInt]
  omega

theorem intMul_natCast (a b : ℕ) :
    intMul a b = if a * b < 2 ^ 31 then some ((a * b : ℕ) : ℤ) else none := by
  have hcast : (a : ℤ) * b = (a * b : ℕ) := by simp
  by_cases h : a * b < 2 ^ 31
  · rw [intMul, hcast, if_pos h, if_pos (by rw [IsInt]; omega)]
  · rw [intMul, hcast, if_neg h, if_neg (by rw [IsInt]; omega)]

end OsispLabs.Lib
