import OsispLabs.Lib.CircularView

/-!
# The message ring shared by the two queue programs

`lab5_1.c` and `lab5_2.c` keep messages in the same ring: the slots from `head`, in ring order of
capacity `sizeQueue`. Their producer and consumer sections and the body of `discrSize` move the
ring in the same way; only the growing loop differs. Out-of-block accesses are recorded in
`fault`, so index safety is a statement about the code as it is written here.
-/
namespace OsispLabs.Lab5
open Lib

/-- One slot of `queue.buffer`: fresh heap memory, cleared by `memset`, or a copied message. -/
inductive Slot (α : Type*) where
  | unwritten
  | zeroed
  | message (m : α)
  deriving DecidableEq, Repr

/-- The heap block behind `queue.buffer`. -/
structure Buffer (α : Type*) where
  slots : ℕ → Slot α
  size : ℕ
  fault : Bool

variable {α : Type*}

namespace Buffer

def malloc (n : ℕ) : Buffer α := ⟨fun _ => .unwritten, n, false⟩

/-- `realloc` keeps the common part of the old and the new block. -/
def realloc (b : Buffer α) (n : ℕ) : Buffer α :=
  { b with
    slots := fun i => if i < b.size ∧ i < n then b.slots i else .unwritten
    size := n }

def load (b : Buffer α) (i : ℕ) : Slot α × Buffer α :=
  (b.slots i, { b with fault := b.fault || !decide (i < b.size) })

def store (b : Buffer α) (i : ℕ) (x : Slot α) : Buffer α :=
  { b with
    slots := Function.update b.slots i x
    fault := b.fault || !decide (i < b.size) }

/-- `buffer[dst] = buffer[src]` -/
def copy (b : Buffer α) (dst src : ℕ) : Buffer α :=
  (b.load src).2.store dst (b.load src).1

/-- `for (i = i₀; i > stop; i--) buffer[i] = buffer[i - 1]` -/
def shiftUp (b : Buffer α) (stop : ℕ) : ℕ → Buffer α
  | 0 => b
  | i + 1 => if stop < i + 1 then shiftUp (b.copy (i + 1) i) stop i else b

/-- `for (i = 0; tail - head - i > 0; i++) buffer[i] = buffer[head + i]` -/
def compact (b : Buffer α) (head tail : ℕ) : Buffer α :=
  (List.range (tail - head)).foldl (fun b i => b.copy i (head + i)) b

/-- `for (i = 0; head + i < size; i++) buffer[head + i - 1] = buffer[head + i]` -/
def shiftDown (b : Buffer α) (head size : ℕ) : Buffer α :=
  (List.range (size - head)).foldl (fun b i => b.copy (head + i - 1) (head + i)) b

@[simp] theorem realloc_size (b : Buffer α) (n : ℕ) : (b.realloc n).size = n := rfl
@[simp] theorem realloc_fault (b : Buffer α) (n : ℕ) : (b.realloc n).fault = b.fault := rfl
@[simp] theorem load_fst (b : Buffer α) (i : ℕ) : (b.load i).1 = b.slots i := rfl
@[simp] theorem load_slots (b : Buffer α) (i : ℕ) : (b.load i).2.slots = b.slots := rfl
@[simp] theorem load_size (b : Buffer α) (i : ℕ) : (b.load i).2.size = b.size := rfl
@[simp] theorem store_slots (b : Buffer α) (i : ℕ) (x : Slot α) :
    (b.store i x).slots = Function.update b.slots i x := rfl
@[simp] theorem store_size (b : Buffer α) (i : ℕ) (x : Slot α) : (b.store i x).size = b.size := rfl
@[simp] theorem copy_slots (b : Buffer α) (dst src : ℕ) :
    (b.copy dst src).slots = Function.update b.slots dst (b.slots src) := rfl
@[simp] theorem copy_size (b : Buffer α) (dst src : ℕ) : (b.copy dst src).size = b.size := rfl

theorem load_fault {b : Buffer α} {i : ℕ} (hi : i < b.size) : (b.load i).2.fault = b.fault := by
  simp [load, hi]

theorem store_fault {b : Buffer α} {i : ℕ} (hi : i < b.size) (x : Slot α) :
    (b.store i x).fault = b.fault := by
  simp [store, hi]

theorem copy_fault {b : Buffer α} {dst src : ℕ} (hd : dst < b.size) (hs : src < b.size) :
    (b.copy dst src).fault = b.fault := by
  simp [copy, load, store, hd, hs]

@[simp] theorem shiftUp_size (b : Buffer α) (stop i : ℕ) : (b.shiftUp stop i).size = b.size := by
  induction i generalizing b with
  | zero => rfl
  | succ i ih =>
    rw [shiftUp]
    split
    · rw [ih, copy_size]
    · rfl

theorem shiftUp_slots (b : Buffer α) (stop i j : ℕ) :
    (b.shiftUp stop i).slots j = if stop < j ∧ j ≤ i then b.slots (j - 1) else b.slots j := by
  induction i generalizing b with
  | zero => rw [shiftUp, if_neg (by omega)]
  | succ i ih =>
    rw [shiftUp]
    split
    · rw [ih, copy_slots]
      by_cases hj : j = i + 1
      · subst j
        rw [if_neg (by omega), if_pos (by omega), Function.update_self, Nat.add_sub_cancel]
      · rw [Function.update_of_ne hj]
        by_cases hs : stop < j ∧ j ≤ i
        · rw [if_pos hs, if_pos (by omega), Function.update_of_ne (by omega)]
        · rw [if_neg hs, if_neg (by omega)]
    · rw [if_neg (by omega)]

theorem shiftUp_fault (b : Buffer α) (stop i : ℕ) (hi : i < b.size) :
    (b.shiftUp stop i).fault = b.fault := by
  induction i generalizing b with
  | zero => rfl
  | succ i ih =>
    rw [shiftUp]
    split
    · rw [ih _ (by rw [copy_size]; omega), copy_fault hi (by omega)]
    · rfl

/-- A loop that copies slot `src i` to slot `dst i`, for `i` from `0` up to `k`, where no slot is
read after it has been written. -/
theorem copyLoop_spec (b : Buffer α) (dst src : ℕ → ℕ) (k : ℕ)
    (hmove : ∀ i < k, ∀ j < i, dst j ≠ src i) (hinj : ∀ i < k, ∀ j < i, dst j ≠ dst i)
    (hd : ∀ i < k, dst i < b.size) (hs : ∀ i < k, src i < b.size) :
    let c := (List.range k).foldl (fun b i => b.copy (dst i) (src i)) b
    c.size = b.size ∧ c.fault = b.fault ∧ (∀ i < k, c.slots (dst i) = b.slots (src i)) ∧
      ∀ p, (∀ i < k, dst i ≠ p) → c.slots p = b.slots p := by
  induction k with
  | zero => simp
  | succ k ih =>
    obtain ⟨hsize, hfault, hcell, hrest⟩ := ih (fun i hi => hmove i (by omega))
      (fun i hi => hinj i (by omega)) (fun i hi => hd i (by omega)) (fun i hi => hs i (by omega))
    simp only [List.range_succ, List.foldl_append, List.foldl_cons, List.foldl_nil]
    refine ⟨by rw [copy_size, hsize], ?_, ?_, ?_⟩
    · rw [copy_fault (hsize ▸ hd k (by omega)) (hsize ▸ hs k (by omega)), hfault]
    · intro i hi
      rw [copy_slots]
      by_cases hik : i = k
      · subst i
        rw [Function.update_self, hrest _ (fun j hj => hmove k (by omega) j hj)]
      · rw [Function.update_of_ne (hinj k (by omega) i (by omega)), hcell i (by omega)]
    · intro p hp
      rw [copy_slots, Function.update_of_ne (Ne.symm (hp k (by omega))),
        hrest p (fun i hi => hp i (by omega))]

theorem compact_spec (b : Buffer α) (head tail : ℕ) (ht : tail ≤ b.size) :
    (b.compact head tail).size = b.size ∧ (b.compact head tail).fault = b.fault ∧
      ∀ i < tail - head, (b.compact head tail).slots i = b.slots (head + i) := by
  obtain ⟨hsize, hfault, hcell, _⟩ := copyLoop_spec b (fun i => i) (fun i => head + i)
    (tail - head) (fun i hi j hj => by omega) (fun i hi j hj => by omega)
    (fun i hi => by omega) (fun i hi => by omega)
  exact ⟨hsize, hfault, hcell⟩

theorem shiftDown_spec (b : Buffer α) (head size : ℕ) (hh : 0 < head) (hs : size ≤ b.size) :
    (b.shiftDown head size).size = b.size ∧ (b.shiftDown head size).fault = b.fault ∧
      (∀ j, head ≤ j → j < size → (b.shiftDown head size).slots (j - 1) = b.slots j) ∧
      ∀ j, j + 1 < head → (b.shiftDown head size).slots j = b.slots j := by
  obtain ⟨hsize, hfault, hcell, hrest⟩ := copyLoop_spec b (fun i => head + i - 1)
    (fun i => head + i) (size - head) (fun i hi j hj => by omega) (fun i hi j hj => by omega)
    (fun i hi => by omega) (fun i hi => by omega)
  refine ⟨hsize, hfault, fun j hj hlt => ?_, fun j hj => hrest j (fun i hi => by omega)⟩
  have h := hcell (j - head) (by omega)
  simp only [Nat.add_sub_cancel' hj] at h
  exact h

end Buffer

/-- The part of `MessageQueue` that both programs have, with the global `sizeQueue`. -/
structure Ring (α : Type*) where
  buffer : Buffer α
  head : ℕ
  tail : ℕ
  countAdd : ℕ
  countGet : ℕ
  sizeQueue : ℕ

namespace Ring

/-- `init_queue` for a given `sizeQueue`. -/
def init (n : ℕ) : Ring α := ⟨.malloc n, 0, 0, 0, 0, n⟩

/-- The slot write of `workProducer`: `countAdd++`, `memcpy`, `++tail` and the wrap. -/
def put (r : Ring α) (msg : α) : Ring α :=
  { r with
    countAdd := r.countAdd + 1
    buffer := r.buffer.store r.tail (.message msg)
    tail := if r.tail + 1 = r.sizeQueue then 0 else r.tail + 1 }

/-- The slot read of `workConsumer`: `countGet++`, `memcpy`, `memset`, `++head` and the wrap. -/
def take (r : Ring α) : Slot α × Ring α :=
  ((r.buffer.load r.head).1,
    { r with
      countGet := r.countGet + 1
      buffer := (r.buffer.load r.head).2.store r.head .zeroed
      head := if r.head + 1 = r.sizeQueue then 0 else r.head + 1 })

/-- `sizeQueue++` and the `realloc` of `incremSize`. -/
def grow (r : Ring α) : Ring α :=
  { r with sizeQueue := r.sizeQueue + 1, buffer := r.buffer.realloc (r.sizeQueue + 1) }

/-- `while (head != 0) { --head; --tail; }` -/
def rewind : ℕ → ℕ → ℕ × ℕ
  | 0, tail => (0, tail)
  | head + 1, tail => rewind head (tail - 1)

/-- The three branches of `discrSize`. -/
def squeeze (r : Ring α) : Ring α :=
  if r.head < r.tail then
    { r with
      buffer := r.buffer.compact r.head r.tail
      head := (rewind r.head r.tail).1
      tail := (rewind r.head r.tail).2 }
  else if r.head = r.tail then
    { r with head := 0, tail := 0 }
  else
    { r with
      buffer := r.buffer.shiftDown r.head r.sizeQueue
      head := r.head - 1 }

/-- The body of `discrSize` under its test: the branches, then `realloc` to `--sizeQueue`. -/
def shrink (r : Ring α) : Ring α :=
  { r.squeeze with
    sizeQueue := r.sizeQueue - 1
    buffer := r.squeeze.buffer.realloc (r.sizeQueue - 1) }

theorem rewind_eq (head tail : ℕ) : rewind head tail = (0, tail - head) := by
  induction head generalizing tail with
  | zero => rfl
  | succ head ih =>
    rw [rewind, ih, Nat.sub_sub, Nat.add_comm 1 head]

end Ring

end OsispLabs.Lab5
