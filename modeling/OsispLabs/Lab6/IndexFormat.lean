import OsispLabs.Lab6.UnsortedFile
import OsispLabs.Lib.Layout

/-!
# The bytes of an index file

`createIndexFile` writes a header and numbered records with random time marks, `main` maps the file
and sorts the records in place, and `readBinaryFile` prints them. The floating-point type and the
memory allocator are parameters.
-/
namespace OsispLabs.Lab6
open Lib

/-- How a `double` is stored, and `day + hour / 24.0`. -/
structure Double (T : Type*) where
  layout : Layout T
  width_eq : layout.width = 8
  mark : ℕ → ℕ → T

/-- `malloc`: where the memory is and what it happens to hold, or nothing. -/
structure Heap where
  alloc : ℕ → Option (UInt64 × List UInt8)
  length_alloc : ∀ size block, alloc size = some block → block.2.length = size

/-- A buffer after `fread`: what the file has, and the old content behind it. -/
def fread (buffer file : List UInt8) : List UInt8 :=
  file.take buffer.length ++ buffer.drop file.length

namespace IndexHdrS

def equiv : UInt64 × UInt64 ≃ IndexHdrS where
  toFun w := ⟨w.1, w.2⟩
  invFun h := (h.records, h.idx)
  left_inv _ := rfl
  right_inv _ := rfl

/-- `sizeof(index_hdr_s)` is 16. -/
def layout : Layout IndexHdrS := (Layout.word.prod Layout.word).map equiv

theorem layout_width : layout.width = 16 := rfl

end IndexHdrS

variable {T : Type*}

def IndexS.equiv : T × UInt64 ≃ IndexS T where
  toFun w := ⟨w.1, w.2⟩
  invFun r := (r.timeMark, r.recno)
  left_inv _ := rfl
  right_inv _ := rfl

namespace Double

variable (d : Double T)

/-- `sizeof(index_s)` is 16. -/
def record : Layout (IndexS T) := (d.layout.prod Layout.word).map IndexS.equiv

theorem record_width : d.record.width = 16 := by
  change d.layout.width + 8 = 16
  rw [d.width_eq]

/-- The file, one byte after the other. -/
def stored (file : IndexFile T) : List UInt8 :=
  IndexHdrS.layout.encode file.header ++ d.record.store file.index

/-- The file as `main` maps it. -/
def mapped (bytes : List UInt8) : IndexFile T where
  header := IndexHdrS.layout.decode (bytes.take 16)
  index := d.record.loadAll (bytes.drop 16)

/-- The records of `createIndexFile`; the draws are those for the day and for the hour of a
record. -/
def created (numRecords : UInt64) (draws : ℕ → ℕ × ℕ) : List (IndexS T) :=
  (List.range numRecords.toNat).map fun i =>
    ⟨d.mark ((draws i).1 % 36525) ((draws i).2 % 24), UInt64.ofNat (i + 1)⟩

/-- `main` of `createIndexFile.c`: the bytes of the file, which stays empty when `malloc` fails. A
number of records whose size wraps around makes the loop leave the allocated memory. -/
def createIndexFile (malloc : Heap) (numRecords : UInt64) (draws : ℕ → ℕ × ℕ) :
    Option (List UInt8) :=
  match malloc.alloc (toSize (numRecords.toNat * 16)) with
  | none => some []
  | some block =>
    if numRecords.toNat * 16 < 2 ^ 64 then
      some (d.stored ⟨⟨numRecords, block.1⟩, d.created numRecords draws⟩)
    else none

/-- `main` of `readBinaryFile.c`: the number and the records that are printed, unless `malloc`
fails or the loop leaves the allocated memory. `header` is not initialised. -/
def readBinaryFile (malloc : Heap) (header : { bytes : List UInt8 // bytes.length = 16 })
    (file : List UInt8) : Option (UInt64 × List (IndexS T)) :=
  let records := (IndexHdrS.layout.decode (fread header.1 file)).records
  match malloc.alloc (toSize (records.toNat * 16)) with
  | none => none
  | some block =>
    if records.toNat * 16 < 2 ^ 64 then
      some (records, d.record.load records.toNat (fread block.2 (file.drop 16)))
    else none

theorem length_encode_header (header : IndexHdrS) :
    (IndexHdrS.layout.encode header).length = 16 := IndexHdrS.layout.length_encode header

theorem created_length (numRecords : UInt64) (draws : ℕ → ℕ × ℕ) :
    (d.created numRecords draws).length = numRecords.toNat := by
  rw [created, List.length_map, List.length_range]

/-- What is stored is what is mapped. -/
theorem mapped_stored (file : IndexFile T) : d.mapped (d.stored file) = file := by
  have hlen := length_encode_header file.header
  have hrecords := d.record.loadAll_store file.index []
    (by rw [d.record_width]; decide)
  rw [List.append_nil] at hrecords
  rw [mapped, stored, List.take_left' hlen, List.drop_left' hlen, IndexHdrS.layout.decode_encode,
    hrecords]

/-- A file of whole records is stored as it was mapped. -/
theorem stored_mapped {bytes : List UInt8} {records : ℕ} (h : bytes.length = 16 + 16 * records) :
    d.stored (d.mapped bytes) = bytes := by
  have htake : (bytes.take 16).length = 16 := List.length_take_of_le (by omega)
  have hdrop : (bytes.drop 16).length = records * d.record.width := by
    rw [List.length_drop, d.record_width]
    omega
  have hcount : (bytes.drop 16).length / d.record.width = records := by
    rw [hdrop, d.record_width]
    omega
  rw [stored, mapped, IndexHdrS.layout.encode_decode _ htake, Layout.loadAll, hcount,
    d.record.store_load hdrop, List.take_append_drop]

theorem fread_of_le {buffer file : List UInt8} (h : buffer.length ≤ file.length) :
    fread buffer file = file.take buffer.length := by
  rw [fread, List.drop_of_length_le h, List.append_nil]

/-- A file whose header gives the number of its records is printed as it is. -/
theorem readBinaryFile_stored {malloc : Heap} {file : IndexFile T}
    (hmalloc : malloc.alloc (file.index.length * 16) ≠ none)
    (header : { bytes : List UInt8 // bytes.length = 16 })
    (hrecords : file.header.records.toNat = file.index.length)
    (hlt : file.index.length * 16 < 2 ^ 64) :
    d.readBinaryFile malloc header (d.stored file) =
      some (file.header.records, file.index) := by
  have hlen := length_encode_header file.header
  have hheader : fread header.1 (d.stored file) = IndexHdrS.layout.encode file.header := by
    rw [fread_of_le, header.2, stored, List.take_left' hlen]
    rw [header.2, stored, List.length_append, hlen]
    omega
  have hstore := d.record.length_store file.index
  rw [d.record_width] at hstore
  obtain ⟨block, hblock⟩ := Option.ne_none_iff_exists'.mp hmalloc
  have hbytes : toSize (file.header.records.toNat * 16) = file.index.length * 16 := by
    rw [hrecords, toSize_of_nonneg (by omega) (by omega)]
    omega
  have hsize : block.2.length = (d.record.store file.index).length := by
    rw [malloc.length_alloc _ _ hblock, hstore]
  have hidx : fread block.2 ((d.stored file).drop 16) = d.record.store file.index := by
    rw [stored, List.drop_left' hlen, fread_of_le (Nat.le_of_eq hsize), hsize, List.take_length]
  have hload := d.record.load_store file.index []
  rw [List.append_nil] at hload
  simp only [readBinaryFile, hheader, IndexHdrS.layout.decode_encode, hbytes, hblock]
  rw [if_pos (by omega), hidx, hrecords, hload]

/-- The file that `createIndexFile` writes. -/
theorem createIndexFile_eq (malloc : Heap) (numRecords : UInt64)
    (hmalloc : malloc.alloc (numRecords.toNat * 16) ≠ none)
    (hlt : numRecords.toNat * 16 < 2 ^ 64) (draws : ℕ → ℕ × ℕ) :
    ∃ idx, d.createIndexFile malloc numRecords draws =
      some (d.stored ⟨⟨numRecords, idx⟩, d.created numRecords draws⟩) := by
  obtain ⟨block, hblock⟩ := Option.ne_none_iff_exists'.mp hmalloc
  have hbytes : toSize (numRecords.toNat * 16) = numRecords.toNat * 16 := by
    rw [toSize_of_nonneg (by omega) (by omega)]
    omega
  refine ⟨block.1, ?_⟩
  simp only [createIndexFile, hbytes, hblock]
  rw [if_pos hlt]

/-- The records are numbered from one. -/
theorem created_recno (numRecords : UInt64) (draws : ℕ → ℕ × ℕ) :
    (d.created numRecords draws).map IndexS.recno =
      (List.range numRecords.toNat).map fun i => UInt64.ofNat (i + 1) := by
  rw [created, List.map_map]
  rfl

variable [LinearOrder T]

/-- A created file, sorted with arguments that suit its size by any interleaving, is printed as the
records that were created, each with the time mark it was given, in the order of the time marks. -/
theorem created_sorted_read (d : Double T) {qsort : Qsort T} (hsort : qsort.Sorts)
    {malloc : Heap} {numRecords : UInt64}
    (hmalloc : malloc.alloc (numRecords.toNat * 16) ≠ none)
    (header : { bytes : List UInt8 // bytes.length = 16 }) (draws : ℕ → ℕ × ℕ)
    {bytes : List UInt8}
    (hcreate : d.createIndexFile malloc numRecords draws = some bytes) {a : Args}
    (hlong : IsLong (filesize numRecords.toNat))
    (hargs : a.Accepted (filesize numRecords.toNat)) (h : a.Sortable numRecords.toNat)
    {as : List (Action a.threads.toNat)} {p : Program a.threads.toNat T}
    (hrun : a.Runs qsort (d.mapped bytes) as p) (hended : p.Ended) :
    ∃ result printed, p = .returned result ∧
      d.readBinaryFile malloc header (d.stored result) = some (numRecords, printed) ∧
      printed.Pairwise Precedes ∧ printed.Perm (d.created numRecords draws) ∧
      (printed.map IndexS.recno).Perm
        ((List.range numRecords.toNat).map fun i => UInt64.ofNat (i + 1)) := by
  have hlt : numRecords.toNat * 16 < 2 ^ 64 := by
    simp only [IsLong, filesize] at hlong
    omega
  obtain ⟨idx, hfile⟩ := d.createIndexFile_eq _ _ hmalloc hlt draws
  rw [hfile, Option.some_inj] at hcreate
  have hlen := d.created_length numRecords draws
  rw [← hcreate, mapped_stored] at hrun
  have hsorts : a.SortsFile qsort ⟨⟨numRecords, idx⟩, d.created numRecords draws⟩ := by
    apply Args.sortsFile_of_sortable hsort <;> simpa only [hlen]
  obtain ⟨result, rfl, hheader, hperm, hsorted⟩ := hsorts.sorted as p hrun hended
  have hrecords : result.header.records = numRecords := by rw [hheader]
  have hcount : result.index.length = numRecords.toNat := hperm.length_eq.trans hlen
  have hread : d.readBinaryFile malloc header (d.stored result) =
      some (result.header.records, result.index) :=
    d.readBinaryFile_stored (by rwa [hcount]) header (by rw [hrecords, hcount]) (by rwa [hcount])
  rw [hrecords] at hread
  refine ⟨result, result.index, rfl, hread, hsorted, hperm, ?_⟩
  rw [← d.created_recno numRecords draws]
  exact hperm.map IndexS.recno

/-- The bit pattern of `q / 4`, for `q` below `2 ^ 53`. -/
def quarters (q : ℕ) : ℕ :=
  if q = 0 then 0
  else (1021 + Nat.log2 q) * 2 ^ 52 + (q - 2 ^ Nat.log2 q) * 2 ^ (52 - Nat.log2 q)

/-- Time marks at six, twelve and eighteen hours and at midnight, as the bit patterns of `double`,
which are ordered as the numbers are. -/
def sixHours : Double (Fin (2 ^ 64)) where
  layout := Layout.word.map ⟨UInt64.toFin, UInt64.ofFin, fun _ => rfl, fun _ => rfl⟩
  width_eq := rfl
  mark day hour := Fin.ofNat _ (quarters (4 * day + hour / 6))

example : quarters 5 = 0x3FF4000000000000 := by decide

/-- Memory full of zeros. -/
def zeros : Heap where
  alloc size := some (4096, List.replicate size 0)
  length_alloc size block h := by
    rw [← Option.some.inj h, List.length_replicate]

theorem isInt_two : IsInt 2 := by decide

def twoBlocks : Args := ⟨2, 2, 2, isInt_two, isInt_two, isInt_two⟩

/-- The second record comes first. -/
theorem created_sorted_read_twoBlocks : ∃ bytes as result printed,
    sixHours.createIndexFile zeros 2 (fun i => (7 - i, 12 * i)) = some bytes ∧
      twoBlocks.Runs Qsort.mergeSort (sixHours.mapped bytes) as (.returned result) ∧
      sixHours.readBinaryFile zeros ⟨List.replicate 16 0, rfl⟩ (sixHours.stored result) =
        some (2, printed) ∧ printed.Pairwise Precedes ∧
      printed.Perm (sixHours.created 2 fun i => (7 - i, 12 * i)) := by
  have hlong : IsLong (filesize 2) := by simp [IsLong, filesize]
  have hargs : twoBlocks.Accepted (filesize 2) := by
    simp [Args.Accepted, twoBlocks, filesize, toSize, Args.blockSize, toInt]
  have hsortable : twoBlocks.Sortable 2 := by decide
  obtain ⟨idx, hcreate⟩ := sixHours.createIndexFile_eq zeros 2
    (by simp [zeros]) (by decide) fun i => (7 - i, 12 * i)
  have hsorts : twoBlocks.SortsFile Qsort.mergeSort
      ⟨⟨2, idx⟩, sixHours.created 2 fun i => (7 - i, 12 * i)⟩ :=
    Args.sortsFile_of_sortable Qsort.mergeSort_sorts hlong hargs hsortable
  obtain ⟨as, result, hrun, -, -⟩ := hsorts.exists_returned
  rw [← sixHours.mapped_stored ⟨⟨2, idx⟩, _⟩] at hrun
  obtain ⟨_, printed, hresult, hread, hsorted, hperm, -⟩ := created_sorted_read sixHours
    Qsort.mergeSort_sorts (by simp [zeros]) ⟨List.replicate 16 0, rfl⟩ _ hcreate hlong hargs
    hsortable hrun trivial
  cases hresult
  exact ⟨_, as, result, printed, hcreate, hrun, hread, hsorted, hperm⟩

end Double

end OsispLabs.Lab6
