import Mathlib.Algebra.Order.BigOperators.Group.List
import Mathlib.Algebra.Order.Group.Nat
import Mathlib.Algebra.Ring.Nat

/-!
# Message generation

`generateMessage` of both queue programs and of `lab4Main.c`, which has the same text. The results
of `rand` after `srand` are a stream of natural numbers; `next` is the number of results used up.
-/
namespace OsispLabs.Lab5

abbrev RandStream := ℕ → ℕ

/-- `struct Message` -/
structure Message where
  type : ℕ
  hash : ℕ
  size : ℕ
  data : List ℕ
  deriving DecidableEq, Repr

/-- `for (randSize = ...; randSize == 0; );`, for at most `fuel` tests of its condition. The body
and the step of the loop are empty. -/
def drawSize : ℕ → ℕ → Option ℕ
  | 0, _ => none
  | fuel + 1, randSize => if randSize = 0 then drawSize fuel randSize else some randSize

/-- The result is converted to `unsigned char`. -/
def generateRandSize (rand : RandStream) (next fuel : ℕ) : Option ℕ :=
  (drawSize fuel (rand next % 257)).map fun randSize =>
    (if randSize = 256 then 0 else randSize) % 256

def generateDataMessage (rand : RandStream) (next size : ℕ) : List ℕ :=
  let size := if size = 0 then 256 else size
  (List.range ((size + 3) / 4 * 4)).map fun i => 33 + rand (next + i) % 93

/-- The bound of the loops in `readData` and `generateMessage`. -/
def dataLength (size : ℕ) : ℕ := if size ≠ 0 then (size + 3) / 4 * 4 else 256

/-- The characters that are printed; `none` for a read past the end of the data. -/
def readData (msg : Message) : Option (List ℕ) :=
  (List.range (dataLength msg.size)).mapM fun i => msg.data[i]?

/-- Arithmetic in `unsigned short`. -/
def addHash (hash n : ℕ) : ℕ := (hash + n) % 65536

def generateMessage (rand : RandStream) (fuel : ℕ) : Option Message := do
  let type := 'S'.toNat
  let size ← generateRandSize rand 0 fuel
  let data := generateDataMessage rand 1 size
  let bytes ← (List.range (dataLength size)).mapM fun i => data[i]?
  return ⟨type, bytes.foldl addHash (addHash type size), size, data⟩

/-- The length that `size` stands for. -/
def logicalLength (size : ℕ) : ℕ := if size = 0 then 256 else size

/-- `n` is `k`, rounded up to a multiple of 4. -/
def RoundedUp (k n : ℕ) : Prop := 4 ∣ n ∧ k ≤ n ∧ n < k + 4

structure Message.WellFormed (msg : Message) : Prop where
  size : msg.size < 256
  logicalLength : 1 ≤ logicalLength msg.size ∧ logicalLength msg.size ≤ 256
  dataLength : RoundedUp (Lab5.logicalLength msg.size) msg.data.length
  printable : ∀ b ∈ msg.data, 33 ≤ b ∧ b ≤ 125
  hash : msg.hash = msg.type + msg.size + msg.data.sum ∧ msg.hash < 65536
  readData : readData msg = some msg.data

variable {rand : RandStream} {next fuel size randSize : ℕ} {msg : Message}

/-- The empty body never changes a size of 0. -/
@[simp]
theorem drawSize_zero (fuel : ℕ) : drawSize fuel 0 = none := by
  induction fuel with
  | zero => rfl
  | succ fuel ih => rw [drawSize, if_pos rfl, ih]

theorem drawSize_eq_some_iff {n : ℕ} :
    drawSize fuel randSize = some n ↔ fuel ≠ 0 ∧ randSize ≠ 0 ∧ n = randSize := by
  cases fuel with
  | zero => simp [drawSize]
  | succ fuel =>
    by_cases h : randSize = 0
    · simp [h]
    · simp [drawSize, h, eq_comm]

theorem generateRandSize_eq_some_iff :
    generateRandSize rand next fuel = some size ↔
      fuel ≠ 0 ∧ rand next % 257 ≠ 0 ∧ size = rand next % 257 % 256 := by
  have hlt : rand next % 257 < 257 := Nat.mod_lt _ (by decide)
  have hnarrow : (if rand next % 257 = 256 then 0 else rand next % 257) % 256 =
      rand next % 257 % 256 := by
    split_ifs with h
    · rw [h]
    · rfl
  simp only [generateRandSize, Option.map_eq_some_iff, drawSize_eq_some_iff]
  constructor
  · rintro ⟨n, ⟨hfuel, hne, rfl⟩, rfl⟩
    exact ⟨hfuel, hne, hnarrow⟩
  · rintro ⟨hfuel, hne, rfl⟩
    exact ⟨_, ⟨hfuel, hne, rfl⟩, hnarrow⟩

theorem dataLength_eq (size : ℕ) : dataLength size = (logicalLength size + 3) / 4 * 4 := by
  by_cases h : size = 0
  · simp [dataLength, logicalLength, h]
  · simp [dataLength, logicalLength, h]

@[simp]
theorem generateDataMessage_length (rand : RandStream) (next size : ℕ) :
    (generateDataMessage rand next size).length = dataLength size := by
  rw [dataLength_eq, generateDataMessage, List.length_map, List.length_range, logicalLength]

theorem generateDataMessage_printable {b : ℕ} (h : b ∈ generateDataMessage rand next size) :
    33 ≤ b ∧ b ≤ 125 := by
  simp only [generateDataMessage, List.mem_map] at h
  obtain ⟨i, -, rfl⟩ := h
  have hlt : rand (next + i) % 93 < 93 := Nat.mod_lt _ (by decide)
  omega

/-- A loop over all indices reads the whole list. -/
theorem mapM_getElem? {α : Type*} (xs : List α) :
    (List.range xs.length).mapM (fun i => xs[i]?) = some xs := by
  have hfrom : ∀ ys zs : List α,
      (List.range' ys.length zs.length).mapM (fun i => (ys ++ zs)[i]?) = some zs := by
    intro ys zs
    induction zs generalizing ys with
    | nil => rfl
    | cons z zs ih =>
      have hrest := ih (ys ++ [z])
      simp only [List.length_append, List.length_singleton, List.append_assoc,
        List.singleton_append] at hrest
      rw [List.length_cons, List.range'_succ, List.mapM_cons, hrest]
      simp
  rw [List.range_eq_range']
  exact hfrom [] xs

/-- A sum that fits is not wrapped. -/
theorem foldl_addHash {data : List ℕ} {hash : ℕ} (h : hash + data.sum < 65536) :
    data.foldl addHash hash = hash + data.sum := by
  induction data generalizing hash with
  | nil => rfl
  | cons b data ih =>
    rw [List.sum_cons] at h ⊢
    have hstep : addHash hash b = hash + b := Nat.mod_eq_of_lt (by omega)
    rw [List.foldl_cons, hstep, ih (by omega)]
    omega

/-- The message that a size gives. -/
def messageOf (rand : RandStream) (size : ℕ) : Message :=
  let data := generateDataMessage rand 1 size
  ⟨'S'.toNat, data.foldl addHash (addHash 'S'.toNat size), size, data⟩

theorem generateMessage_eq_some_iff :
    generateMessage rand fuel = some msg ↔
      fuel ≠ 0 ∧ rand 0 % 257 ≠ 0 ∧ msg = messageOf rand (rand 0 % 257 % 256) := by
  have hread : ∀ size, (List.range (dataLength size)).mapM
      (fun i => (generateDataMessage rand 1 size)[i]?) =
        some (generateDataMessage rand 1 size) := by
    intro size
    rw [← generateDataMessage_length rand 1 size]
    exact mapM_getElem? _
  simp only [generateMessage, hread, Option.bind_eq_bind, Option.bind_eq_some_iff,
    generateRandSize_eq_some_iff]
  constructor
  · rintro ⟨size, ⟨hfuel, hne, rfl⟩, data, hdata, hmsg⟩
    obtain rfl := Option.some_inj.mp hdata
    exact ⟨hfuel, hne, (Option.some_inj.mp hmsg).symm⟩
  · rintro ⟨hfuel, hne, rfl⟩
    exact ⟨_, ⟨hfuel, hne, rfl⟩, _, rfl, rfl⟩

theorem dataLength_le (h : size < 256) : dataLength size ≤ 256 := by
  rw [dataLength]
  split_ifs <;> omega

theorem messageOf_wellFormed (h : size < 256) : (messageOf rand size).WellFormed where
  size := h
  logicalLength := by
    change 1 ≤ Lab5.logicalLength size ∧ Lab5.logicalLength size ≤ 256
    rw [Lab5.logicalLength]
    split_ifs <;> omega
  dataLength := by
    simp only [messageOf, generateDataMessage_length, dataLength_eq]
    refine ⟨Nat.dvd_mul_left _ _, ?_, ?_⟩ <;> omega
  printable _ hb := generateDataMessage_printable hb
  hash := by
    have hsum : (generateDataMessage rand 1 size).sum ≤ dataLength size * 125 := by
      have hcard := List.sum_le_card_nsmul (generateDataMessage rand 1 size) 125
        (fun b hb => (generateDataMessage_printable hb).2)
      rwa [generateDataMessage_length, Nat.nsmul_eq_mul] at hcard
    have hlen := dataLength_le h
    have htype : 'S'.toNat = 83 := rfl
    have hinit : addHash 'S'.toNat size = 'S'.toNat + size := Nat.mod_eq_of_lt (by omega)
    have hfits : 'S'.toNat + size + (generateDataMessage rand 1 size).sum < 65536 := by omega
    simp only [messageOf]
    rw [hinit, foldl_addHash hfits]
    exact ⟨rfl, hfits⟩
  readData := by
    simp only [Lab5.readData, messageOf]
    rw [← generateDataMessage_length rand 1 size]
    exact mapM_getElem? _

/-- `generateMessage` returns, and every message it returns is well formed. -/
def GeneratesWellFormed (rand : RandStream) : Prop :=
  (∃ fuel msg, generateMessage rand fuel = some msg) ∧
    ∀ fuel msg, generateMessage rand fuel = some msg → msg.WellFormed

theorem generatesWellFormed_iff (rand : RandStream) :
    GeneratesWellFormed rand ↔ ¬ 257 ∣ rand 0 := by
  rw [Nat.dvd_iff_mod_eq_zero]
  constructor
  · rintro ⟨⟨fuel, msg, hmsg⟩, -⟩
    exact (generateMessage_eq_some_iff.mp hmsg).2.1
  · intro h
    refine ⟨⟨1, _, generateMessage_eq_some_iff.mpr ⟨one_ne_zero, h, rfl⟩⟩, ?_⟩
    intro fuel msg hmsg
    obtain ⟨-, -, rfl⟩ := generateMessage_eq_some_iff.mp hmsg
    exact messageOf_wellFormed (Nat.mod_lt _ (by decide))

/-- The first result is 0, and the size is never drawn again. -/
theorem generateMessage_zero_diverges : ¬ GeneratesWellFormed (fun _ => 0) := by
  rintro ⟨⟨fuel, msg, hmsg⟩, -⟩
  exact (generateMessage_eq_some_iff.mp hmsg).2.1 rfl

end OsispLabs.Lab5
