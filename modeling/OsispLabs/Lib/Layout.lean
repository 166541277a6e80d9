import Mathlib.Algebra.Group.Nat.Defs
import Mathlib.Data.List.Flatten
import Mathlib.Logic.Equiv.Defs

/-!
# Values of a fixed size in a file

A layout stores the values of a type in the same number of bytes each, so that a file of values can
be cut again without any marks between them.
-/
namespace OsispLabs.Lib

/-- Every value is stored in `width` bytes, and every `width` bytes are a value. -/
structure Layout (α : Type*) where
  width : ℕ
  encode : α → List UInt8
  decode : List UInt8 → α
  length_encode : ∀ a, (encode a).length = width
  decode_encode : ∀ a, decode (encode a) = a
  encode_decode : ∀ bs, bs.length = width → encode (decode bs) = bs

/-- The `w` lowest bytes of a number, the lowest first. -/
def toBytes : ℕ → ℕ → List UInt8
  | 0, _ => []
  | w + 1, n => UInt8.ofNat n :: toBytes w (n / 256)

def ofBytes : List UInt8 → ℕ
  | [] => 0
  | b :: bs => b.toNat + 256 * ofBytes bs

theorem length_toBytes (w n : ℕ) : (toBytes w n).length = w := by
  induction w generalizing n with
  | zero => rfl
  | succ w ih => rw [toBytes, List.length_cons, ih]

theorem ofBytes_toBytes {w n : ℕ} (h : n < 256 ^ w) : ofBytes (toBytes w n) = n := by
  induction w generalizing n with
  | zero =>
    rw [Nat.pow_zero] at h
    rw [toBytes, ofBytes]
    omega
  | succ w ih =>
    have hdiv : n / 256 < 256 ^ w := by
      rw [Nat.pow_succ] at h
      omega
    have hlow : (UInt8.ofNat n).toNat = n % 256 := UInt8.toNat_ofNat'
    rw [toBytes, ofBytes, ih hdiv, hlow]
    omega

theorem ofBytes_lt (bs : List UInt8) : ofBytes bs < 256 ^ bs.length := by
  induction bs with
  | nil => simp [ofBytes]
  | cons b bs ih =>
    have hb := b.toNat_lt
    rw [ofBytes, List.length_cons, Nat.pow_succ]
    omega

theorem toBytes_ofBytes (bs : List UInt8) : toBytes bs.length (ofBytes bs) = bs := by
  induction bs with
  | nil => rfl
  | cons b bs ih =>
    have hb : b.toNat < 256 := b.toNat_lt
    have hdiv : (b.toNat + 256 * ofBytes bs) / 256 = ofBytes bs := by omega
    have hlow : UInt8.ofNat (b.toNat + 256 * ofBytes bs) = b := by
      apply UInt8.toNat_inj.mp
      rw [UInt8.toNat_ofNat']
      omega
    rw [List.length_cons, ofBytes, toBytes, hdiv, hlow, ih]

namespace Layout

variable {α β : Type*}

/-- `uint64_t`, the lowest byte first. -/
def word : Layout UInt64 where
  width := 8
  encode n := toBytes 8 n.toNat
  decode bs := UInt64.ofNat (ofBytes bs)
  length_encode n := length_toBytes 8 n.toNat
  decode_encode n := by
    rw [ofBytes_toBytes (Nat.lt_of_lt_of_eq n.toNat_lt (by decide)), UInt64.ofNat_toNat]
  encode_decode bs h := by
    have hlt := ofBytes_lt bs
    rw [h] at hlt
    rw [UInt64.toNat_ofNat_of_lt' (Nat.lt_of_lt_of_eq hlt (by decide)), ← h, toBytes_ofBytes]

/-- Two members of a structure. -/
def prod (L : Layout α) (M : Layout β) : Layout (α × β) where
  width := L.width + M.width
  encode a := L.encode a.1 ++ M.encode a.2
  decode bs := (L.decode (bs.take L.width), M.decode (bs.drop L.width))
  length_encode a := by rw [List.length_append, L.length_encode, M.length_encode]
  decode_encode a := by
    rw [List.take_left' (L.length_encode a.1), List.drop_left' (L.length_encode a.1),
      L.decode_encode, M.decode_encode]
  encode_decode bs h := by
    have hL : (bs.take L.width).length = L.width := List.length_take_of_le (by omega)
    have hM : (bs.drop L.width).length = M.width := by
      rw [List.length_drop]
      omega
    rw [L.encode_decode _ hL, M.encode_decode _ hM, List.take_append_drop]

/-- The same bytes for the values of another type. -/
def map (L : Layout α) (e : α ≃ β) : Layout β where
  width := L.width
  encode b := L.encode (e.symm b)
  decode bs := e (L.decode bs)
  length_encode b := L.length_encode _
  decode_encode b := by rw [L.decode_encode, e.apply_symm_apply]
  encode_decode bs h := by rw [e.symm_apply_apply, L.encode_decode bs h]

variable (L : Layout α)

/-- Values one behind the other. -/
def store (xs : List α) : List UInt8 := xs.flatMap L.encode

/-- The first `n` values. -/
def load : ℕ → List UInt8 → List α
  | 0, _ => []
  | n + 1, bs => L.decode (bs.take L.width) :: load n (bs.drop L.width)

/-- What a loop finds that reads one value after the other, as long as there is a whole one. -/
def loadAll (bs : List UInt8) : List α := L.load (bs.length / L.width) bs

theorem length_store (xs : List α) : (L.store xs).length = xs.length * L.width := by
  induction xs with
  | nil => simp [store]
  | cons x xs ih =>
    rw [store, List.flatMap_cons, List.length_append, L.length_encode, ← store, ih,
      List.length_cons, Nat.succ_mul, Nat.add_comm]

theorem length_load (n : ℕ) (bs : List UInt8) : (L.load n bs).length = n := by
  induction n generalizing bs with
  | zero => rfl
  | succ n ih => rw [load, List.length_cons, ih]

/-- Each value is found where it is stored. -/
theorem getElem?_load {n k : ℕ} (hk : k < n) (bs : List UInt8) :
    (L.load n bs)[k]? = some (L.decode ((bs.drop (L.width * k)).take L.width)) := by
  induction n generalizing k bs with
  | zero => omega
  | succ n ih =>
    cases k with
    | zero => simp [load]
    | succ k =>
      rw [load, List.getElem?_cons_succ, ih (by omega), List.drop_drop, Nat.mul_succ, Nat.add_comm]

/-- Reading back what was written, with anything behind it. -/
theorem load_store (xs : List α) (rest : List UInt8) :
    L.load xs.length (L.store xs ++ rest) = xs := by
  induction xs with
  | nil => rfl
  | cons x xs ih =>
    rw [store, List.flatMap_cons, ← store, List.append_assoc, List.length_cons, load,
      List.take_left' (L.length_encode x), List.drop_left' (L.length_encode x), L.decode_encode, ih]

theorem store_load {n : ℕ} {bs : List UInt8} (h : bs.length = n * L.width) :
    L.store (L.load n bs) = bs := by
  induction n generalizing bs with
  | zero =>
    rw [Nat.zero_mul] at h
    rw [List.eq_nil_of_length_eq_zero h]
    rfl
  | succ n ih =>
    rw [Nat.succ_mul] at h
    have htake : (bs.take L.width).length = L.width := List.length_take_of_le (by omega)
    rw [load, store, List.flatMap_cons, ← store, L.encode_decode _ htake,
      ih (by rw [List.length_drop]; omega), List.take_append_drop]

/-- The loop finds the values and leaves what is less than one. -/
theorem loadAll_store (xs : List α) (rest : List UInt8) (h : rest.length < L.width) :
    L.loadAll (L.store xs ++ rest) = xs := by
  have hcount : (xs.length * L.width + rest.length) / L.width = xs.length := by
    rw [Nat.mul_comm, Nat.mul_add_div (by omega), Nat.div_eq_of_lt h, Nat.add_zero]
  rw [loadAll, List.length_append, length_store, hcount, load_store]

end Layout

end OsispLabs.Lib
