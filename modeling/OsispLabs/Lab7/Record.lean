import OsispLabs.Lib.CString
import Mathlib.Algebra.Group.Nat.Defs
import Mathlib.Data.Int.Init
import Mathlib.Data.List.Basic

/-!
# Records and the record file

A `record_s` is 161 bytes: `name` at 0, `address` at 80 and `semester` at 160. The file is a list
of bytes, read and written at byte offsets; neither a short last record nor a write past the end
is excluded.
-/
namespace OsispLabs.Lab7
open Lib

/-- `sizeof(record_s)` -/
abbrev recordSize : ℕ := 161

/-- A byte buffer `xs` overwritten by `ys` from `start` on. -/
def splice (xs : List UInt8) (start : ℕ) (ys : List UInt8) : List UInt8 :=
  xs.take start ++ ys ++ xs.drop (start + ys.length)

theorem splice_length {xs ys : List UInt8} {start : ℕ} (h : start + ys.length ≤ xs.length) :
    (splice xs start ys).length = xs.length := by
  simp only [splice, List.length_append, List.length_take, List.length_drop]
  omega

/-- `record_s` -/
structure Record where
  bytes : List UInt8
  size : bytes.length = recordSize
  deriving DecidableEq

namespace Record

def zero : Record := ⟨List.replicate recordSize 0, List.length_replicate⟩

/-- The buffer after `ys` arrived at `start`; bytes past its end are dropped. -/
def fill (r : Record) (start : ℕ) (ys : List UInt8) : Record where
  bytes := splice r.bytes start (ys.take (recordSize - start))
  size := by
    by_cases h : start ≤ recordSize
    · rw [splice_length]
      · exact r.size
      · rw [r.size, List.length_take]
        omega
    · have hz : recordSize - start = 0 := by omega
      rw [hz, List.take_zero]
      simp only [splice, List.length_append, List.length_take, List.length_drop, r.size,
        List.length_nil]
      omega

/-- The C string that starts at a byte of the record. -/
def cString (r : Record) (start : ℕ) : List UInt8 := untilNul 0 (r.bytes.drop start)

def name (r : Record) : List UInt8 := r.cString 0

def address (r : Record) : List UInt8 := r.cString 80

def semester (r : Record) : Option UInt8 := r.bytes[160]?

/-- The test of `saveRecord` that finds no change. -/
def Same (a b : Record) : Prop :=
  a.name = b.name ∧ a.address = b.address ∧ a.semester = b.semester

instance (a b : Record) : Decidable (a.Same b) := inferInstanceAs (Decidable (_ ∧ _))

/-- `fgets(record->name, 80, stdin)`: at most 79 bytes of the line and a terminator, or nothing
at the end of the input. -/
def getLine (r : Record) (start : ℕ) : Option (List UInt8) → Record
  | some line => r.fill start (line.take 79 ++ [0])
  | none => r

/-- `modifyRecord` for the given input. -/
def modifyRecord (r : Record) (name address : Option (List UInt8)) (semester : Option UInt8) :
    Record :=
  ((r.getLine 0 name).getLine 80 address).fill 160 semester.toList

theorem fill_full (r : Record) {ys : List UInt8} (h : ys.length = recordSize) :
    r.fill 0 ys = ⟨ys, h⟩ := by
  have hdrop : r.bytes.drop recordSize = [] := List.drop_of_length_le (Nat.le_of_eq r.size)
  simp only [fill, splice, Nat.sub_zero, List.take_of_length_le (Nat.le_of_eq h),
    List.take_zero, Nat.zero_add,
    h, hdrop, List.nil_append, List.append_nil]

end Record

/-- The bytes of the data file. -/
abbrev File := List UInt8

namespace File

/-- `read` of one record at an offset: what is there, at most 161 bytes. -/
def readAt (f : File) (offset : ℕ) : List UInt8 := (f.drop offset).take recordSize

/-- `write` of one record at an offset; a gap before it is filled with zeros. -/
def writeAt (f : File) (offset : ℕ) (r : Record) : File :=
  f.take offset ++ List.replicate (offset - f.length) 0 ++ r.bytes ++
    f.drop (offset + recordSize)

/-- Record `k` of the file, if all its bytes are there. -/
def record? (f : File) (k : ℕ) : Option Record :=
  if h : (f.readAt (recordSize * k)).length = recordSize then some ⟨_, h⟩ else none

/-- The record with an integer number. -/
def recordAt (f : File) (k : ℤ) : Option Record := if 0 ≤ k then f.record? k.toNat else none

theorem readAt_length (f : File) (offset : ℕ) :
    (f.readAt offset).length = min recordSize (f.length - offset) := by
  rw [readAt, List.length_take, List.length_drop]

theorem record?_isSome_iff (f : File) (k : ℕ) :
    (f.record? k).isSome ↔ recordSize * (k + 1) ≤ f.length := by
  have hlen := f.readAt_length (recordSize * k)
  have hmul : recordSize * (k + 1) = recordSize * k + recordSize := Nat.mul_succ _ _
  have hpos : 0 < recordSize := by decide
  unfold record?
  split
  · simp only [Option.isSome_some, true_iff]
    omega
  · simp only [Option.isSome_none, Bool.false_eq_true, false_iff]
    omega

theorem readAt_of_record? {f : File} {k : ℕ} {c : Record} (h : f.record? k = some c) :
    f.readAt (recordSize * k) = c.bytes := by
  unfold record? at h
  split at h
  · rw [← Option.some.inj h]
  · cases h

theorem length_le_writeAt (f : File) (offset : ℕ) (r : Record) :
    f.length ≤ (f.writeAt offset r).length := by
  simp only [writeAt, List.length_append, List.length_take, List.length_replicate,
    List.length_drop, r.size]
  omega

theorem writeAt_length {f : File} {offset : ℕ} (r : Record) (h : offset + recordSize ≤ f.length) :
    (f.writeAt offset r).length = f.length := by
  simp only [writeAt, List.length_append, List.length_take, List.length_replicate,
    List.length_drop, r.size]
  omega

/-- A write changes no byte of the file outside the record it writes. -/
theorem getElem?_writeAt (f : File) (offset : ℕ) (r : Record) {b : ℕ} (hb : b < f.length)
    (hout : b < offset ∨ offset + recordSize ≤ b) : (f.writeAt offset r)[b]? = f[b]? := by
  unfold writeAt
  rcases hout with hlt | hge
  · rw [List.append_assoc, List.append_assoc, List.getElem?_append_left,
      List.getElem?_take_of_lt hlt]
    rw [List.length_take]
    omega
  · have hlen : (f.take offset ++ List.replicate (offset - f.length) 0 ++ r.bytes).length =
        offset + recordSize := by
      simp only [List.length_append, List.length_take, List.length_replicate, r.size]
      omega
    rw [List.getElem?_append_right (by omega), hlen, List.getElem?_drop, Nat.add_sub_cancel' hge]

/-- A write at record `m` leaves every other record that lies before the end. -/
theorem readAt_writeAt_ne (f : File) {k m : ℕ} (r : Record) (hne : k ≠ m)
    (hk : recordSize * (k + 1) ≤ f.length) :
    (f.writeAt (recordSize * m) r).readAt (recordSize * k) = f.readAt (recordSize * k) := by
  apply List.ext_getElem?
  intro i
  unfold readAt
  rw [List.getElem?_take, List.getElem?_take]
  split
  · have hmul : recordSize * (k + 1) = recordSize * k + recordSize := Nat.mul_succ _ _
    rw [List.getElem?_drop, List.getElem?_drop]
    refine getElem?_writeAt f _ r (by omega) ?_
    rcases Nat.lt_or_gt_of_ne hne with hlt | hgt
    · left
      have := Nat.mul_le_mul_left recordSize hlt
      rw [Nat.succ_eq_add_one] at this
      omega
    · right
      have := Nat.mul_le_mul_left recordSize hgt
      rw [Nat.succ_eq_add_one, Nat.mul_succ] at this
      omega
  · rfl

theorem record?_writeAt_ne (f : File) {k m : ℕ} (r : Record) (hne : k ≠ m)
    (hk : recordSize * (k + 1) ≤ f.length) :
    (f.writeAt (recordSize * m) r).record? k = f.record? k := by
  simp only [record?, f.readAt_writeAt_ne r hne hk]

/-- A write returns its record, unless it leaves a gap before it. -/
theorem record?_writeAt_self {f : File} {k : ℕ} (r : Record) (h : recordSize * k ≤ f.length) :
    (f.writeAt (recordSize * k) r).record? k = some r := by
  have hlen : (f.take (recordSize * k) ++ List.replicate (recordSize * k - f.length) 0).length =
      recordSize * k := by
    rw [List.length_append, List.length_take, List.length_replicate]
    omega
  have hread : (f.writeAt (recordSize * k) r).readAt (recordSize * k) = r.bytes := by
    rw [readAt, writeAt, List.append_assoc, List.drop_left' hlen, List.take_left' r.size]
  rw [record?, dif_pos (by rw [hread]; exact r.size)]
  simp only [hread]

theorem recordAt_natCast (f : File) (k : ℕ) : f.recordAt k = f.record? k := by
  rw [recordAt, if_pos (Int.natCast_nonneg k), Int.toNat_natCast]

end File

end OsispLabs.Lab7
