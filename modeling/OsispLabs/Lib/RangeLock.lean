import Mathlib.Data.Fintype.Basic
import Mathlib.Data.List.Basic
import Mathlib.Order.Basic

/-!
# Advisory byte-range locks

Every process has one lock value on each byte of a file. Locking a range replaces the values of
that process there, and is possible when no other process has an incompatible value on the range.
-/
namespace OsispLabs.Lib

inductive Lock where
  | free
  | read
  | write
  deriving DecidableEq, Repr

/-- Two processes may have these values on one byte. -/
def Lock.Compatible : Lock → Lock → Prop
  | .write, .write | .write, .read | .read, .write => False
  | .free, _ | _, .free | .read, .read => True

instance : (a b : Lock) → Decidable (a.Compatible b)
  | .write, .write | .write, .read | .read, .write => isFalse id
  | .free, .free | .free, .read | .free, .write | .read, .free | .write, .free | .read, .read =>
    isTrue trivial

theorem Lock.Compatible.symm {a b : Lock} (h : a.Compatible b) : b.Compatible a := by
  cases a <;> cases b <;> exact h

theorem Lock.compatible_free (a : Lock) : a.Compatible .free := by
  cases a <;> exact trivial

/-- Bytes from `start` on, `len` of them, or all of them when `len` is zero. -/
structure ByteRange where
  start : ℕ
  len : ℕ
  deriving DecidableEq, Repr

namespace ByteRange

def Covers (r : ByteRange) (b : ℕ) : Prop := r.start ≤ b ∧ (r.len = 0 ∨ b < r.start + r.len)

instance (r : ByteRange) (b : ℕ) : Decidable (r.Covers b) := inferInstanceAs (Decidable (_ ∧ _))

end ByteRange

/-- The lock values of one process: listed up to some byte and constant beyond it. -/
structure LockMap where
  bytes : List Lock
  beyond : Lock
  deriving DecidableEq, Repr

namespace LockMap

def get (m : LockMap) (b : ℕ) : Lock := m.bytes.getD b m.beyond

def empty : LockMap := ⟨[], .free⟩

@[simp] theorem get_empty (b : ℕ) : empty.get b = .free := rfl

/-- Replace the values on a range. -/
def set (m : LockMap) (r : ByteRange) (k : Lock) : LockMap where
  bytes := (List.range (max m.bytes.length (r.start + r.len))).map fun b =>
    if r.Covers b then k else m.get b
  beyond := if r.len = 0 then k else m.beyond

theorem get_of_length_le {m : LockMap} {b : ℕ} (h : m.bytes.length ≤ b) : m.get b = m.beyond := by
  rw [get, List.getD_eq_getElem?_getD, List.getElem?_eq_none h, Option.getD_none]

theorem get_set (m : LockMap) (r : ByteRange) (k : Lock) (b : ℕ) :
    (m.set r k).get b = if r.Covers b then k else m.get b := by
  by_cases hb : b < max m.bytes.length (r.start + r.len)
  · rw [get, List.getD_eq_getElem?_getD, set, List.getElem?_map, List.getElem?_range hb]
    rfl
  · have hlen : (m.set r k).bytes.length ≤ b := by
      rw [set, List.length_map, List.length_range]
      omega
    rw [get_of_length_le hlen, set, get_of_length_le (m := m) (by omega)]
    by_cases hz : r.len = 0
    · rw [if_pos hz, if_pos ⟨by omega, .inl hz⟩]
    · rw [if_neg hz, if_neg fun h => h.2.elim hz fun hlt => by omega]

/-- No byte is locked. -/
def Free (m : LockMap) : Prop := ∀ b, m.get b = .free

/-- The range has this lock, and no byte outside it is locked. -/
def Holds (m : LockMap) (r : ByteRange) (k : Lock) : Prop :=
  ∀ b, m.get b = if r.Covers b then k else .free

variable {m : LockMap} {r r' : ByteRange} {k : Lock}

theorem empty_free : empty.Free := get_empty

theorem Free.set (h : m.Free) (r : ByteRange) (k : Lock) : (m.set r k).Holds r k := fun b => by
  rw [get_set, h b]

theorem Holds.release (h : m.Holds r k) : (m.set r .free).Free := fun b => by
  rw [get_set, h b]
  split <;> rfl

theorem Holds.not_free (h : m.Holds r k) (hk : k ≠ .free) {b : ℕ} (hb : r.Covers b) :
    ¬ m.Free := fun hfree => by
  have hlock := h b
  rw [hfree b, if_pos hb] at hlock
  exact hk hlock.symm

/-- Unlocking another range leaves a byte of this one locked. -/
theorem Holds.not_free_of_release (h : m.Holds r k) (hk : k ≠ .free) {b : ℕ} (hb : r.Covers b)
    (hout : ¬ r'.Covers b) : ¬ (m.set r' .free).Free := fun hfree => by
  have hlock := hfree b
  rw [get_set, if_neg hout, h b, if_pos hb] at hlock
  exact hk hlock

end LockMap

variable {I : Type*} [DecidableEq I]

/-- No other process has an incompatible value on the range. -/
def Grantable (locks : I → LockMap) (i : I) (r : ByteRange) (k : Lock) : Prop :=
  ∀ j, j ≠ i → ∀ b, r.Covers b → k.Compatible ((locks j).get b)

omit [DecidableEq I] in
theorem grantable_of_free {locks : I → LockMap} {i : I} (h : ∀ j, j ≠ i → (locks j).Free)
    (r : ByteRange) (k : Lock) : Grantable locks i r k := fun j hj b _ => by
  rw [h j hj b]
  exact k.compatible_free

omit [DecidableEq I] in
/-- It is enough to look at the listed bytes and at one byte beyond them. -/
theorem grantable_iff (locks : I → LockMap) (i : I) (r : ByteRange) (k : Lock) :
    Grantable locks i r k ↔ ∀ j, j ≠ i →
      ∀ b < max (locks j).bytes.length (r.start + r.len) + 1, r.Covers b →
        k.Compatible ((locks j).get b) := by
  constructor
  · intro h j hj b _ hb
    exact h j hj b hb
  · intro h j hj b hb
    by_cases hlt : b < max (locks j).bytes.length (r.start + r.len) + 1
    · exact h j hj b hlt hb
    · have hz : r.len = 0 := hb.2.resolve_right (by omega)
      have hlast := h j hj (max (locks j).bytes.length (r.start + r.len)) (Nat.lt_succ_self _)
        ⟨by omega, .inl hz⟩
      rw [LockMap.get_of_length_le (by omega)] at hlast ⊢
      exact hlast

instance [Fintype I] (locks : I → LockMap) (i : I) (r : ByteRange) (k : Lock) :
    Decidable (Grantable locks i r k) :=
  decidable_of_iff _ (grantable_iff locks i r k).symm

/-- The table after process `i` locked or unlocked a range. -/
def setLock (locks : I → LockMap) (i : I) (r : ByteRange) (k : Lock) : I → LockMap :=
  Function.update locks i ((locks i).set r k)

/-- No two processes have incompatible values on one byte. -/
def Excluded (locks : I → LockMap) : Prop :=
  ∀ i j, i ≠ j → ∀ b, ((locks i).get b).Compatible ((locks j).get b)

omit [DecidableEq I] in
theorem excluded_empty : Excluded fun _ : I => LockMap.empty := fun _ _ _ _ => trivial

@[simp] theorem setLock_self (locks : I → LockMap) (i : I) (r : ByteRange) (k : Lock) :
    setLock locks i r k i = (locks i).set r k := Function.update_self _ _ _

theorem get_setLock_self (locks : I → LockMap) (i : I) (r : ByteRange) (k : Lock) (b : ℕ) :
    (setLock locks i r k i).get b = if r.Covers b then k else (locks i).get b := by
  rw [setLock_self, LockMap.get_set]

theorem get_setLock_ne {locks : I → LockMap} {i j : I} (h : j ≠ i) (r : ByteRange) (k : Lock) :
    setLock locks i r k j = locks j := Function.update_of_ne h _ _

/-- The new values of process `i` have to agree with all others only. -/
theorem Excluded.update {locks : I → LockMap} (h : Excluded locks) {i : I} {m : LockMap}
    (hm : ∀ j, j ≠ i → ∀ b, (m.get b).Compatible ((locks j).get b)) :
    Excluded (Function.update locks i m) := by
  intro j k hjk b
  by_cases hj : j = i
  · subst hj
    rw [Function.update_self, Function.update_of_ne (Ne.symm hjk)]
    exact hm k (Ne.symm hjk) b
  · rw [Function.update_of_ne hj]
    by_cases hk : k = i
    · subst hk
      rw [Function.update_self]
      exact (hm j hj b).symm
    · rw [Function.update_of_ne hk]
      exact h j k hjk b

theorem Excluded.lock {locks : I → LockMap} (h : Excluded locks) {i : I} {r : ByteRange}
    {k : Lock} (hg : Grantable locks i r k) : Excluded (setLock locks i r k) := by
  refine h.update fun j hj b => ?_
  rw [LockMap.get_set]
  split
  · exact hg j hj b ‹_›
  · exact h i j (Ne.symm hj) b

theorem Excluded.unlock {locks : I → LockMap} (h : Excluded locks) (i : I) (r : ByteRange) :
    Excluded (setLock locks i r .free) :=
  h.lock fun _ _ _ _ => trivial

theorem Excluded.close {locks : I → LockMap} (h : Excluded locks) (i : I) :
    Excluded (Function.update locks i LockMap.empty) :=
  h.update fun _ _ _ => trivial

/-- A byte has at most one writer. -/
theorem Excluded.writer_unique {locks : I → LockMap} (h : Excluded locks) {i j : I} {b : ℕ}
    (hi : (locks i).get b = .write) (hj : (locks j).get b = .write) : i = j := by
  by_contra hne
  have hc := h i j hne b
  rw [hi, hj] at hc
  exact hc

end OsispLabs.Lib
