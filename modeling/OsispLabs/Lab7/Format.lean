import Mathlib.Data.List.TakeWhile
import OsispLabs.Lab7.Record
import OsispLabs.Lib.Layout

/-!
# Created and listed files

`createFile` writes records of random letters, and `readFile` prints the whole records of a file.
`%s` prints up to a zero byte, wherever that is; in a terminated record it is in the field.
-/
namespace OsispLabs.Lab7
open Lib

namespace Record

/-- Every 161 bytes are a `record_s`. -/
def layout : Layout Record where
  width := recordSize
  encode := bytes
  decode bs := if h : bs.length = recordSize then ⟨bs, h⟩ else zero
  length_encode := size
  decode_encode r := dif_pos r.size
  encode_decode bs h := by rw [dif_pos h]

theorem getElem?_fill (r : Record) {start : ℕ} {ys : List UInt8}
    (h : start + ys.length ≤ 161) (b : ℕ) :
    (r.fill start ys).bytes[b]? =
      if start ≤ b ∧ b < start + ys.length then ys[b - start]? else r.bytes[b]? := by
  change start + ys.length ≤ recordSize at h
  have hys : ys.take (recordSize - start) = ys := List.take_of_length_le (by omega)
  have hstart : (r.bytes.take start).length = start :=
    List.length_take_of_le (by rw [r.size]; omega)
  simp only [fill, hys, splice]
  rcases Nat.lt_or_ge b start with hlt | hge
  · rw [if_neg (by omega), List.append_assoc, List.getElem?_append_left (by omega),
      List.getElem?_take_of_lt hlt]
  · rcases Nat.lt_or_ge b (start + ys.length) with hin | hout
    · rw [if_pos ⟨hge, hin⟩, List.getElem?_append_left (by rw [List.length_append]; omega),
        List.getElem?_append_right (by omega), hstart]
    · rw [if_neg (by omega), List.getElem?_append_right (by rw [List.length_append]; omega),
        List.length_append, hstart, List.getElem?_drop, Nat.add_sub_cancel' hout]

/-- Both strings end inside their fields. -/
structure Terminated (r : Record) : Prop where
  name : ∃ b < 80, r.bytes[b]? = some 0
  address : ∃ b < 80, r.bytes[80 + b]? = some 0

/-- Of a string that ends inside its field nothing behind the field is printed. -/
theorem length_cString_lt {r : Record} {start b : ℕ} (h : r.bytes[start + b]? = some 0) :
    (r.cString start).length ≤ b := by
  refine untilNul_length_le ?_
  rw [List.getElem?_drop, h]

theorem Terminated.name_length {r : Record} (h : r.Terminated) : r.name.length < 80 := by
  obtain ⟨b, hb, hzero⟩ := h.name
  exact Nat.lt_of_le_of_lt (length_cString_lt (by rwa [Nat.zero_add])) hb

theorem Terminated.address_length {r : Record} (h : r.Terminated) : r.address.length < 80 := by
  obtain ⟨b, hb, hzero⟩ := h.address
  exact Nat.lt_of_le_of_lt (length_cString_lt hzero) hb

/-- Whatever has been typed is terminated. -/
theorem Terminated.modifyRecord {r : Record} (h : r.Terminated)
    (name address : Option (List UInt8)) (semester : Option UInt8) :
    (r.modifyRecord name address semester).Terminated := by
  have hsemester : ∀ (s : Record) b, b < 160 → (s.fill 160 semester.toList).bytes[b]? =
      s.bytes[b]? := by
    intro s b hb
    rw [getElem?_fill s (by cases semester <;> simp), if_neg (by omega)]
  have hline : ∀ line : List UInt8, (line.take 79 ++ [0]).length ≤ 80 ∧
      (line.take 79 ++ [0])[(line.take 79).length]? = some 0 := by
    intro line
    rw [List.getElem?_concat_length, List.length_append, List.length_take]
    exact ⟨by simp only [List.length_singleton]; omega, rfl⟩
  have hname : (r.getLine 0 name).Terminated := by
    cases name with
    | none => exact h
    | some line =>
      obtain ⟨hlen, hzero⟩ := hline line
      have hshort : (line.take 79).length < (line.take 79 ++ [0]).length := by simp
      constructor
      · refine ⟨(line.take 79).length, by omega, ?_⟩
        rw [getLine, getElem?_fill r (by omega), if_pos (by omega), Nat.sub_zero, hzero]
      · obtain ⟨b, hb, hzero'⟩ := h.address
        refine ⟨b, hb, ?_⟩
        rw [getLine, getElem?_fill r (by omega), if_neg (by omega), hzero']
  have haddress : ((r.getLine 0 name).getLine 80 address).Terminated := by
    cases address with
    | none => exact hname
    | some line =>
      obtain ⟨hlen, hzero⟩ := hline line
      have hshort : (line.take 79).length < (line.take 79 ++ [0]).length := by simp
      constructor
      · obtain ⟨b, hb, hzero'⟩ := hname.name
        refine ⟨b, hb, ?_⟩
        rw [getLine, getElem?_fill _ (by omega), if_neg (by omega), hzero']
      · refine ⟨(line.take 79).length, by omega, ?_⟩
        rw [getLine, getElem?_fill _ (by omega), if_pos (by omega), Nat.add_sub_cancel_left, hzero]
  constructor
  · obtain ⟨b, hb, hzero⟩ := haddress.name
    exact ⟨b, hb, by rw [Record.modifyRecord, hsemester _ b (by omega), hzero]⟩
  · obtain ⟨b, hb, hzero⟩ := haddress.address
    exact ⟨b, hb, by rw [Record.modifyRecord, hsemester _ (80 + b) (by omega), hzero]⟩

end Record

/-- `main` of `readFile.c`: the records whose fields are printed. -/
def readFile (file : File) : List Record := Record.layout.loadAll file

/-- The loop of `readFile` reads all whole records. -/
theorem getElem?_readFile (file : File) (k : ℕ) : (readFile file)[k]? = file.record? k := by
  have hread : file.readAt (recordSize * k) =
      (file.drop (Record.layout.width * k)).take Record.layout.width := rfl
  by_cases hk : k < file.length / Record.layout.width
  · have hsize : (file.readAt (recordSize * k)).length = recordSize := by
      have hmul := Nat.mul_le_mul_left recordSize hk
      have hdiv := Nat.mul_div_le file.length recordSize
      change recordSize * (k + 1) ≤ recordSize * (file.length / recordSize) at hmul
      rw [Nat.mul_succ] at hmul
      rw [File.readAt_length]
      omega
    rw [readFile, Layout.loadAll, Layout.getElem?_load _ hk, File.record?, dif_pos hsize, ← hread]
    exact congrArg some (dif_pos hsize)
  · have hnone : ¬ (file.record? k).isSome := by
      rw [File.record?_isSome_iff, Nat.mul_comm, ← Nat.le_div_iff_mul_le (by decide)]
      exact hk
    rw [readFile, Layout.loadAll, List.getElem?_eq_none (by rw [Layout.length_load]; omega)]
    exact (Option.not_isSome_iff_eq_none.mp hnone).symm

/-- Thirty random letters, of the draws at these places. -/
def letters (first : UInt8) (rand : ℕ → ℕ) (place : ℕ → ℕ) : List UInt8 :=
  (List.range 30).map fun j => first + UInt8.ofNat (rand (place j) % 26)

/-- The record that `createFile` fills from 61 draws; `junk` is what was in its memory. -/
def createdRecord (junk : Record) (rand : ℕ → ℕ) : Record :=
  ((junk.fill 0 (letters 'A'.toUInt8 rand (2 * ·) ++ ['\n'.toUInt8, 0])).fill 80
    (letters 'a'.toUInt8 rand (2 * · + 1) ++ ['\n'.toUInt8, 0])).fill 160
      [UInt8.ofNat (rand 60 % 10 + 1)]

/-- The records of `createFile`; `num_records` is what `atoi` returned. -/
def createdRecords (numRecords : ℤ) (junk : ℕ → Record) (rand : ℕ → ℕ) : List Record :=
  (List.range numRecords.toNat).map fun i => createdRecord (junk i) fun n => rand (61 * i + n)

/-- `main` of `createFile.c`: the bytes of the file. -/
def createFile (numRecords : ℤ) (junk : ℕ → Record) (rand : ℕ → ℕ) : File :=
  Record.layout.store (createdRecords numRecords junk rand)

section Created

variable {junk : Record} {rand place : ℕ → ℕ} {first : UInt8}

theorem letters_length : (letters first rand place).length = 30 := by
  rw [letters, List.length_map, List.length_range]

theorem line_length : (letters first rand place ++ ['\n'.toUInt8, 0]).length = 32 := by
  rw [List.length_append, letters_length]
  rfl

/-- What the record has in its name and its address. -/
theorem createdRecord_getElem? (junk : Record) (rand : ℕ → ℕ) {b : ℕ} (hb : b < 32) :
    (createdRecord junk rand).bytes[b]? =
        (letters 'A'.toUInt8 rand (2 * ·) ++ ['\n'.toUInt8, 0])[b]? ∧
      (createdRecord junk rand).bytes[80 + b]? =
        (letters 'a'.toUInt8 rand (2 * · + 1) ++ ['\n'.toUInt8, 0])[b]? := by
  have hname : (letters 'A'.toUInt8 rand (2 * ·) ++ ['\n'.toUInt8, 0]).length = 32 := line_length
  have haddress : (letters 'a'.toUInt8 rand (2 * · + 1) ++ ['\n'.toUInt8, 0]).length = 32 :=
    line_length
  constructor
  · rw [createdRecord, Record.getElem?_fill _ (by simp), if_neg (by omega),
      Record.getElem?_fill _ (by omega), if_neg (by omega), Record.getElem?_fill _ (by omega),
      if_pos (by omega), Nat.sub_zero]
  · rw [createdRecord, Record.getElem?_fill _ (by simp), if_neg (by omega),
      Record.getElem?_fill _ (by omega), if_pos (by omega), Nat.add_sub_cancel_left]

theorem createdRecord_terminated (junk : Record) (rand : ℕ → ℕ) :
    (createdRecord junk rand).Terminated := by
  obtain ⟨hname, haddress⟩ := createdRecord_getElem? junk rand (b := 31) (by omega)
  have hzero : ∀ (first : UInt8) (place : ℕ → ℕ),
      (letters first rand place ++ ['\n'.toUInt8, 0])[31]? = some 0 := by
    intro first place
    rw [List.getElem?_append_right (by rw [letters_length]; omega), letters_length]
    rfl
  exact ⟨⟨31, by omega, by rw [hname, hzero]⟩, ⟨31, by omega, by rw [haddress, hzero]⟩⟩

/-- A string is printed as far as its first zero byte. -/
theorem Record.cString_eq {r : Record} {start : ℕ} {line : List UInt8} (hline : 0 ∉ line)
    (h : ∀ b ≤ line.length, r.bytes[start + b]? = (line ++ [0])[b]?) : r.cString start = line := by
  have hstart : line ++ [0] <+: r.bytes.drop start := by
    rw [List.prefix_iff_getElem?]
    intro b hb
    rw [List.length_append, List.length_singleton] at hb
    rw [List.getElem?_drop, h b (by omega)]
    exact List.getElem?_eq_getElem _
  obtain ⟨rest, hrest⟩ := hstart
  rw [Record.cString, ← hrest, List.append_assoc]
  exact untilNul_append_cons hline rest

theorem mem_letters {c : UInt8} (hlast : first.toNat + 25 < 256)
    (hc : c ∈ letters first rand place) :
    first.toNat ≤ c.toNat ∧ c.toNat ≤ first.toNat + 25 := by
  obtain ⟨j, -, rfl⟩ := List.mem_map.mp hc
  have hmod := Nat.mod_lt (rand (place j)) (by omega : 26 > 0)
  rw [UInt8.toNat_add, UInt8.toNat_ofNat']
  omega

theorem zero_notMem_line (hfirst : 0 < first.toNat) (hlast : first.toNat + 25 < 256) :
    0 ∉ letters first rand place ++ ['\n'.toUInt8] := by
  rw [List.mem_append]
  rintro (hmem | hmem)
  · have hle := (mem_letters hlast hmem).1
    rw [UInt8.toNat_zero] at hle
    omega
  · rw [List.mem_singleton] at hmem
    exact absurd hmem (by decide)

/-- What `readFile` prints of a created record. -/
structure Created (r : Record) : Prop where
  name : ∃ cs : List UInt8, cs.length = 30 ∧ (∀ c ∈ cs, 65 ≤ c.toNat ∧ c.toNat ≤ 90) ∧
    r.name = cs ++ ['\n'.toUInt8]
  address : ∃ cs : List UInt8, cs.length = 30 ∧ (∀ c ∈ cs, 97 ≤ c.toNat ∧ c.toNat ≤ 122) ∧
    r.address = cs ++ ['\n'.toUInt8]
  semester : ∃ n : UInt8, r.semester = some n ∧ 1 ≤ n.toNat ∧ n.toNat ≤ 10

theorem createdRecord_created (junk : Record) (rand : ℕ → ℕ) :
    Created (createdRecord junk rand) where
  name := by
    refine ⟨letters 'A'.toUInt8 rand (2 * ·), letters_length, fun c => mem_letters (by decide),
      Record.cString_eq (zero_notMem_line (by decide) (by decide)) fun b hb => ?_⟩
    rw [List.length_append, letters_length, List.length_singleton] at hb
    rw [Nat.zero_add, (createdRecord_getElem? junk rand (by omega)).1, List.append_assoc]
    rfl
  address := by
    refine ⟨letters 'a'.toUInt8 rand (2 * · + 1), letters_length, fun c => mem_letters (by decide),
      Record.cString_eq (zero_notMem_line (by decide) (by decide)) fun b hb => ?_⟩
    rw [List.length_append, letters_length, List.length_singleton] at hb
    rw [(createdRecord_getElem? junk rand (by omega)).2, List.append_assoc]
    rfl
  semester := by
    refine ⟨UInt8.ofNat (rand 60 % 10 + 1), ?_, ?_⟩
    · rw [Record.semester, createdRecord, Record.getElem?_fill _ (by simp), if_pos (by simp)]
      rfl
    · rw [UInt8.toNat_ofNat']
      omega

theorem length_createdRecords (numRecords : ℤ) (junk : ℕ → Record) (rand : ℕ → ℕ) :
    (createdRecords numRecords junk rand).length = numRecords.toNat := by
  rw [createdRecords, List.length_map, List.length_range]

theorem created_of_mem {numRecords : ℤ} {junk : ℕ → Record} {rand : ℕ → ℕ} {r : Record}
    (h : r ∈ createdRecords numRecords junk rand) : Created r ∧ r.Terminated := by
  obtain ⟨i, -, rfl⟩ := List.mem_map.mp h
  exact ⟨createdRecord_created _ _, createdRecord_terminated _ _⟩

theorem readFile_created (numRecords : ℤ) (junk : ℕ → Record) (rand : ℕ → ℕ) :
    readFile (createFile numRecords junk rand) = createdRecords numRecords junk rand := by
  have hread := Record.layout.loadAll_store (createdRecords numRecords junk rand) [] (by decide)
  rwa [List.append_nil] at hread

end Created

/-- For every stream of random numbers and whatever the memory held, `readFile` prints as many
records as `createFile` was told to write, and of each the name, address and semester it was
given. -/
theorem readFile_createFile (numRecords : ℤ) (junk : ℕ → Record) (rand : ℕ → ℕ) :
    readFile (createFile numRecords junk rand) = createdRecords numRecords junk rand ∧
      (readFile (createFile numRecords junk rand)).length = numRecords.toNat ∧
        ∀ r ∈ readFile (createFile numRecords junk rand), Created r ∧ r.Terminated := by
  rw [readFile_created]
  exact ⟨rfl, length_createdRecords numRecords junk rand, fun r => created_of_mem⟩

end OsispLabs.Lab7
