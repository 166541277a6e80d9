import OsispLabs.Lab6.Merge

/-!
# The cursors of `merge`

`merge` statement by statement: three loops move the cursors `i`, `j` and `k` through the two runs
and the buffer `temp`, which is then copied over both runs. What is in front of `k` in `temp`,
followed by the merge of what is behind `i` and `j`, is the merge of the two runs throughout.
-/
namespace OsispLabs.Lab6
open Lib

/-- `malloc`, which fails or returns a block of the size it is asked for, with some contents. -/
structure Malloc (T : Type*) where
  alloc : ℕ → Option (List (IndexS T))
  length_alloc : ∀ {bytes temp}, alloc bytes = some temp → temp.length = bytes / 16

/-- A `malloc` that never fails. -/
def Malloc.filled {T : Type*} (record : IndexS T) : Malloc T where
  alloc bytes := some (List.replicate (bytes / 16) record)
  length_alloc h := by
    rw [← Option.some.inj h, List.length_replicate]

/-- The arguments of `merge`, in records from the start of the record area. -/
structure MergeCall where
  start1 : ℕ
  start2 : ℕ
  count : ℕ

/-- Where `merge` is: before `malloc`, in one of its three loops, before `memcpy`, or at its end. -/
inductive MergePoint where
  | entry
  | both
  | first
  | second
  | copy
  | returned
  | undefined
  deriving DecidableEq

/-- The points in their order. -/
def MergePoint.rank : MergePoint → ℕ
  | .entry => 5
  | .both => 4
  | .first => 3
  | .second => 2
  | .copy => 1
  | .returned | .undefined => 0

/-- The variables of `merge`, with the record area. `temp` is `none` where the pointer is `NULL`. -/
structure Merging (T : Type*) where
  point : MergePoint
  i : ℕ
  j : ℕ
  k : ℕ
  temp : Option (List (IndexS T))
  area : List (IndexS T)

namespace MergeCall

/-- `count * 2 * sizeof(index_s)`: a product of `int` values, then one of `size_t` values. -/
def bytes (c : MergeCall) : Option ℕ := (intMul c.count 2).map fun twice => toSize (twice * 16)

def firstRun {T : Type*} (c : MergeCall) (area : List (IndexS T)) : List (IndexS T) :=
  window area c.start1 c.count

def secondRun {T : Type*} (c : MergeCall) (area : List (IndexS T)) : List (IndexS T) :=
  window area c.start2 c.count

/-- Both runs, and what `memcpy` writes, are inside the record area. -/
structure Fits {T : Type*} (c : MergeCall) (area : List (IndexS T)) : Prop where
  first : c.start1 + 2 * c.count ≤ area.length
  second : c.start2 + c.count ≤ area.length

theorem intMul_count (c : MergeCall) :
    intMul c.count 2 = if c.count < 2 ^ 30 then some ((c.count * 2 : ℕ) : ℤ) else none := by
  have hmul := intMul_natCast c.count 2
  have hiff : c.count * 2 < 2 ^ 31 ↔ c.count < 2 ^ 30 := by omega
  simp only [hiff] at hmul
  exact hmul

theorem bytes_eq (c : MergeCall) (h : c.count < 2 ^ 30) : c.bytes = some (32 * c.count) := by
  have hsize : toSize ((c.count * 2 : ℕ) * 16) = 32 * c.count := by
    rw [toSize]
    omega
  rw [bytes, c.intMul_count, if_pos h, Option.map_some, hsize]

theorem bytes_eq_none (c : MergeCall) (h : ¬ c.count < 2 ^ 30) : c.bytes = none := by
  rw [bytes, c.intMul_count, if_neg h, Option.map_none]

end MergeCall

namespace Merging

variable {T : Type*}

def start (area : List (IndexS T)) : Merging T := ⟨.entry, 0, 0, 0, none, area⟩

def goto (s : Merging T) (point : MergePoint) : Merging T := { s with point := point }

/-- `temp[k++] = record`; `k` is an `int`, as are `i` and `j`, which stay below `count`. -/
def store (s : Merging T) (record : IndexS T) : Merging T :=
  match s.temp with
  | some temp =>
    if s.k < temp.length ∧ IsInt (s.k + 1) then
      { s with temp := some (temp.set s.k record), k := s.k + 1 }
    else s.goto .undefined
  | none => s.goto .undefined

/-- `temp[k++]` gets the record at a position of the area. -/
def take (s : Merging T) (position : ℕ) : Merging T :=
  match s.area[position]? with
  | some record => s.store record
  | none => s.goto .undefined

/-- `temp[k++] = start1[i++]` -/
def takeFirst (c : MergeCall) (s : Merging T) : Merging T :=
  { s.take (c.start1 + s.i) with i := s.i + 1 }

/-- `temp[k++] = start2[j++]` -/
def takeSecond (c : MergeCall) (s : Merging T) : Merging T :=
  { s.take (c.start2 + s.j) with j := s.j + 1 }

/-- `memcpy(start1, temp, bytes)` and `free(temp)`. -/
def copyBack (c : MergeCall) (s : Merging T) (bytes : ℕ) : Merging T :=
  match s.temp with
  | some temp =>
    if bytes / 16 ≤ temp.length ∧ c.start1 + bytes / 16 ≤ s.area.length then
      { s with
        point := .returned
        temp := none
        area := overwrite s.area c.start1 (temp.take (bytes / 16)) }
    else s.goto .undefined
  | none => s.goto .undefined

variable [LT T] [DecidableLT T]

/-- One test of a loop with the body behind it, or one call. -/
def next (malloc : Malloc T) (c : MergeCall) (s : Merging T) (_ : Unit) : Option (Merging T) :=
  match s.point with
  | .entry =>
    some (c.bytes.elim (s.goto .undefined) fun bytes =>
      { s with point := .both, temp := malloc.alloc bytes })
  | .both =>
    some (if s.i < c.count ∧ s.j < c.count then
      match s.area[c.start1 + s.i]?, s.area[c.start2 + s.j]? with
      | some x, some y => if x.timeMark < y.timeMark then s.takeFirst c else s.takeSecond c
      | _, _ => s.goto .undefined
    else s.goto .first)
  | .first => some (if s.i < c.count then s.takeFirst c else s.goto .second)
  | .second => some (if s.j < c.count then s.takeSecond c else s.goto .copy)
  | .copy => some (c.bytes.elim (s.goto .undefined) (s.copyBack c))
  | .returned | .undefined => none

/-- What holds in the loops: the merge of the runs is what is in `temp` in front of `k`, followed by
the merge of what is behind `i` and `j`. -/
structure Loop (c : MergeCall) (area : List (IndexS T)) (s : Merging T) : Prop where
  unchanged : s.area = area
  i_le : s.i ≤ c.count
  j_le : s.j ≤ c.count
  cursors : s.k = s.i + s.j
  temp : ∃ temp, s.temp = some temp ∧ temp.length = 2 * c.count ∧
    temp.take s.k ++ mergeRuns ((c.firstRun area).drop s.i) ((c.secondRun area).drop s.j) =
      mergeRuns (c.firstRun area) (c.secondRun area)

/-- One more record is in `temp`, and the loop goes on. -/
structure Advanced (c : MergeCall) (area : List (IndexS T)) (s t : Merging T) : Prop where
  loop : Loop c area t
  point : t.point = s.point
  stored : t.k = s.k + 1

variable {c : MergeCall} {area : List (IndexS T)} {s t : Merging T} {malloc : Malloc T}

section Store

omit [LT T] [DecidableLT T]

/-- What a store leaves alone. -/
theorem store_frame (s : Merging T) (record : IndexS T) :
    (s.store record).i = s.i ∧ (s.store record).j = s.j := by
  rw [store]
  split
  · split <;> exact ⟨rfl, rfl⟩
  · exact ⟨rfl, rfl⟩

theorem take_frame (s : Merging T) (position : ℕ) :
    (s.take position).i = s.i ∧ (s.take position).j = s.j := by
  rw [take]
  split
  · exact store_frame s _
  · exact ⟨rfl, rfl⟩

theorem take_set_succ {temp : List (IndexS T)} {k : ℕ} (h : k < temp.length) (x : IndexS T) :
    (temp.set k x).take (k + 1) = temp.take k ++ [x] := by
  rw [List.take_add_one, List.take_set_of_le (Nat.le_refl k), List.getElem?_set_self h]
  rfl

end Store

/-- There is room for the next record in `temp`. -/
theorem Loop.store (h : Loop c area s) (hcount : c.count < 2 ^ 30) (hroom : s.k < 2 * c.count)
    (x : IndexS T) : ∃ temp, s.temp = some temp ∧ temp.length = 2 * c.count ∧
      s.store x = { s with temp := some (temp.set s.k x), k := s.k + 1 } := by
  obtain ⟨temp, htemp, hlength, -⟩ := h.temp
  have hint : IsInt (s.k + 1) := by
    rw [IsInt]
    omega
  refine ⟨temp, htemp, hlength, ?_⟩
  rw [Merging.store, htemp]
  exact if_pos ⟨by omega, hint⟩

/-- The record at a position is stored, if it is the head of what is left to merge. -/
theorem Loop.advance (h : Loop c area s) (hcount : c.count < 2 ^ 30) {x : IndexS T}
    {position i j : ℕ} (hx : s.area[position]? = some x) (hi : i ≤ c.count) (hj : j ≤ c.count)
    (hnext : s.k + 1 = i + j)
    (hmerge : mergeRuns ((c.firstRun area).drop s.i) ((c.secondRun area).drop s.j) =
      x :: mergeRuns ((c.firstRun area).drop i) ((c.secondRun area).drop j)) :
    Advanced c area s { s.take position with i := i, j := j } := by
  obtain ⟨temp, htemp, hlength, hstore⟩ := h.store hcount (by omega) x
  obtain ⟨temp', htemp', -, hprogress⟩ := h.temp
  obtain rfl : temp = temp' := Option.some.inj (htemp.symm.trans htemp')
  have htake : s.take position = { s with temp := some (temp.set s.k x), k := s.k + 1 } := by
    rw [take, hx]
    exact hstore
  rw [htake]
  refine ⟨⟨h.unchanged, hi, hj, hnext, _, rfl, by rw [List.length_set, hlength], ?_⟩, rfl, rfl⟩
  rw [take_set_succ (by omega), List.append_assoc, List.singleton_append, ← hmerge, hprogress]

/-- The record at the cursor of a run is the next one of that run. -/
theorem Loop.record (h : Loop c area s) {start i : ℕ} (hend : start + c.count ≤ area.length)
    (hi : i < c.count) : ∃ x, s.area[start + i]? = some x ∧
      (window area start c.count).drop i = x :: (window area start c.count).drop (i + 1) := by
  have hlt : start + i < area.length := by omega
  have hx := List.getElem?_eq_getElem hlt
  rw [h.unchanged]
  exact ⟨_, hx, drop_window_eq_cons hi hx⟩

theorem Loop.drop_first (h : Loop c area s) (hfits : c.Fits area) (hi : s.i < c.count) :
    ∃ x, s.area[c.start1 + s.i]? = some x ∧
      (c.firstRun area).drop s.i = x :: (c.firstRun area).drop (s.i + 1) := by
  have hend := hfits.first
  exact h.record (by omega) hi

theorem Loop.drop_second (h : Loop c area s) (hfits : c.Fits area) (hj : s.j < c.count) :
    ∃ y, s.area[c.start2 + s.j]? = some y ∧
      (c.secondRun area).drop s.j = y :: (c.secondRun area).drop (s.j + 1) :=
  h.record hfits.second hj

theorem Loop.takeFirst (h : Loop c area s) (hcount : c.count < 2 ^ 30) {x : IndexS T}
    (hx : s.area[c.start1 + s.i]? = some x) (hi : s.i < c.count)
    (hmerge : mergeRuns ((c.firstRun area).drop s.i) ((c.secondRun area).drop s.j) =
      x :: mergeRuns ((c.firstRun area).drop (s.i + 1)) ((c.secondRun area).drop s.j)) :
    Advanced c area s (s.takeFirst c) ∧ (s.takeFirst c).j = s.j := by
  have hcursors := h.cursors
  have hadvanced := h.advance hcount hx hi h.j_le (by omega) hmerge
  have hj := (take_frame s (c.start1 + s.i)).2
  rw [← hj] at hadvanced
  exact ⟨hadvanced, hj⟩

theorem Loop.takeSecond (h : Loop c area s) (hcount : c.count < 2 ^ 30) {y : IndexS T}
    (hy : s.area[c.start2 + s.j]? = some y) (hj : s.j < c.count)
    (hmerge : mergeRuns ((c.firstRun area).drop s.i) ((c.secondRun area).drop s.j) =
      y :: mergeRuns ((c.firstRun area).drop s.i) ((c.secondRun area).drop (s.j + 1))) :
    Advanced c area s (s.takeSecond c) ∧ (s.takeSecond c).i = s.i := by
  have hcursors := h.cursors
  have hadvanced := h.advance hcount hy h.i_le hj (by omega) hmerge
  have hi := (take_frame s (c.start2 + s.j)).1
  rw [← hi] at hadvanced
  exact ⟨hadvanced, hi⟩

theorem Loop.goto (h : Loop c area s) (point : MergePoint) : Loop c area (s.goto point) :=
  ⟨h.unchanged, h.i_le, h.j_le, h.cursors, h.temp⟩

/-- A test of the first loop: a record is taken from one of the runs, or one of them is used up. -/
theorem Loop.next_both (h : Loop c area s) (hfits : c.Fits area) (hcount : c.count < 2 ^ 30)
    (hpoint : s.point = .both) {u : Unit} (hnext : s.next malloc c u = some t) :
    Advanced c area s t ∨ t = s.goto .first ∧ (s.i = c.count ∨ s.j = c.count) := by
  have hi := h.i_le
  have hj := h.j_le
  simp only [next, hpoint, Option.some.injEq] at hnext
  by_cases hlt : s.i < c.count ∧ s.j < c.count
  · obtain ⟨x, hx, hfirst⟩ := h.drop_first hfits hlt.1
    obtain ⟨y, hy, hsecond⟩ := h.drop_second hfits hlt.2
    simp only [if_pos hlt, hx, hy] at hnext
    left
    by_cases hxy : x.timeMark < y.timeMark
    · rw [if_pos hxy] at hnext
      subst hnext
      refine (h.takeFirst hcount hx hlt.1 ?_).1
      rw [hfirst, hsecond, mergeRuns, if_pos hxy]
    · rw [if_neg hxy] at hnext
      subst hnext
      refine (h.takeSecond hcount hy hlt.2 ?_).1
      rw [hfirst, hsecond, mergeRuns, if_neg hxy]
  · rw [if_neg hlt] at hnext
    exact .inr ⟨hnext.symm, by omega⟩

/-- A test of the second loop, whose other run is used up or which has nothing to do. -/
theorem Loop.next_first (h : Loop c area s) (hfits : c.Fits area) (hcount : c.count < 2 ^ 30)
    (hpoint : s.point = .first) (hused : s.i = c.count ∨ s.j = c.count) {u : Unit}
    (hnext : s.next malloc c u = some t) :
    (Advanced c area s t ∧ t.j = c.count) ∨ t = s.goto .second ∧ s.i = c.count := by
  have hi := h.i_le
  simp only [next, hpoint, Option.some.injEq] at hnext
  by_cases hlt : s.i < c.count
  · have hj : s.j = c.count := by omega
    obtain ⟨x, hx, hfirst⟩ := h.drop_first hfits hlt
    have hsecond : (c.secondRun area).drop s.j = [] := by
      rw [hj]
      exact drop_window_self _ _ _
    rw [if_pos hlt] at hnext
    subst hnext
    have htaken := h.takeFirst hcount hx hlt ?_
    · exact .inl ⟨htaken.1, htaken.2.trans hj⟩
    · rw [hfirst, hsecond, mergeRuns_nil_right, mergeRuns_nil_right]
  · rw [if_neg hlt] at hnext
    exact .inr ⟨hnext.symm, by omega⟩

/-- A test of the third loop, whose other run is used up. -/
theorem Loop.next_second (h : Loop c area s) (hfits : c.Fits area) (hcount : c.count < 2 ^ 30)
    (hpoint : s.point = .second) (hused : s.i = c.count) {u : Unit}
    (hnext : s.next malloc c u = some t) :
    (Advanced c area s t ∧ t.i = c.count) ∨ t = s.goto .copy ∧ s.j = c.count := by
  have hj := h.j_le
  simp only [next, hpoint, Option.some.injEq] at hnext
  by_cases hlt : s.j < c.count
  · obtain ⟨y, hy, hsecond⟩ := h.drop_second hfits hlt
    have hfirst : (c.firstRun area).drop s.i = [] := by
      rw [hused]
      exact drop_window_self _ _ _
    rw [if_pos hlt] at hnext
    subst hnext
    have htaken := h.takeSecond hcount hy hlt ?_
    · exact .inl ⟨htaken.1, htaken.2.trans hused⟩
    · rw [hfirst, hsecond, mergeRuns, mergeRuns]
  · rw [if_neg hlt] at hnext
    exact .inr ⟨hnext.symm, by omega⟩

/-- `memcpy` writes the merge of the runs. -/
theorem Loop.copyBack (h : Loop c area s) (hfits : c.Fits area) (hi : s.i = c.count)
    (hj : s.j = c.count) : s.copyBack c (32 * c.count) =
      { s with
        point := .returned
        temp := none
        area := overwrite area c.start1 (mergeRuns (c.firstRun area) (c.secondRun area)) } := by
  obtain ⟨temp, htemp, hlength, hprogress⟩ := h.temp
  have hrecords : 32 * c.count / 16 = 2 * c.count := by omega
  have hk : s.k = 2 * c.count := by
    have hcursors := h.cursors
    omega
  have hroom := hfits.first
  have hfirst : (c.firstRun area).drop c.count = [] := drop_window_self _ _ _
  have hsecond : (c.secondRun area).drop c.count = [] := drop_window_self _ _ _
  rw [hi, hj, hk, hfirst, hsecond, mergeRuns, List.append_nil] at hprogress
  rw [Merging.copyBack, htemp]
  dsimp only
  rw [hrecords, h.unchanged, if_pos ⟨by omega, hroom⟩, hprogress]

/-- The states of a call whose buffer is there. -/
inductive Invariant (c : MergeCall) (area : List (IndexS T)) : Merging T → Prop where
  | entry : Invariant c area (start area)
  | both {s : Merging T} (hpoint : s.point = .both) (h : Loop c area s) : Invariant c area s
  | first {s : Merging T} (hpoint : s.point = .first) (h : Loop c area s)
      (hused : s.i = c.count ∨ s.j = c.count) : Invariant c area s
  | second {s : Merging T} (hpoint : s.point = .second) (h : Loop c area s)
      (hused : s.i = c.count) : Invariant c area s
  | copy {s : Merging T} (hpoint : s.point = .copy) (h : Loop c area s) (hfirst : s.i = c.count)
      (hsecond : s.j = c.count) : Invariant c area s
  | returned {s : Merging T} (hpoint : s.point = .returned)
      (harea : s.area = overwrite area c.start1 (mergeRuns (c.firstRun area) (c.secondRun area))) :
      Invariant c area s

/-- A bound on the steps that are left. -/
def remaining (c : MergeCall) (s : Merging T) : ℕ := s.point.rank + (2 * c.count - s.k)

theorem Advanced.remaining (h : Advanced c area s t) : t.remaining c < s.remaining c := by
  have hi := h.loop.i_le
  have hj := h.loop.j_le
  have hcursors := h.loop.cursors
  have hstored := h.stored
  simp only [Merging.remaining, h.point]
  omega

omit [LT T] [DecidableLT T] in
theorem remaining_goto {point : MergePoint} (h : point.rank < s.point.rank) :
    (s.goto point).remaining c < s.remaining c := by
  simp only [remaining, goto]
  omega

theorem next_entry {block : List (IndexS T)} (hcount : c.count < 2 ^ 30)
    (halloc : malloc.alloc (32 * c.count) = some block) {u : Unit}
    (hnext : (start area).next malloc c u = some t) :
    t.point = .both ∧ t.k = 0 ∧ Loop c area t := by
  have hlength : block.length = 2 * c.count := by
    rw [malloc.length_alloc halloc]
    omega
  simp only [next, start, c.bytes_eq hcount, Option.elim_some, halloc, Option.some.injEq] at hnext
  subst hnext
  exact ⟨rfl, rfl, rfl, Nat.zero_le _, Nat.zero_le _, rfl, block, rfl, hlength, rfl⟩

/-- One step of a call whose buffer is there. -/
theorem Invariant.next {block : List (IndexS T)} (h : Invariant c area s) (hfits : c.Fits area)
    (hcount : c.count < 2 ^ 30) (halloc : malloc.alloc (32 * c.count) = some block) {u : Unit}
    (hnext : s.next malloc c u = some t) :
    Invariant c area t ∧ t.remaining c < s.remaining c := by
  cases h with
  | entry =>
    obtain ⟨hpoint, hk, hloop⟩ := next_entry hcount halloc hnext
    refine ⟨.both hpoint hloop, ?_⟩
    simp [remaining, start, hpoint, hk, MergePoint.rank]
  | both hpoint hloop =>
    rcases hloop.next_both hfits hcount hpoint hnext with hadv | ⟨rfl, hused⟩
    · exact ⟨.both (hadv.point.trans hpoint) hadv.loop, hadv.remaining⟩
    · exact ⟨.first rfl (hloop.goto _) hused, remaining_goto (by simp [hpoint, MergePoint.rank])⟩
  | first hpoint hloop hused =>
    rcases hloop.next_first hfits hcount hpoint hused hnext with ⟨hadv, hj⟩ | ⟨rfl, hi⟩
    · exact ⟨.first (hadv.point.trans hpoint) hadv.loop (.inr hj), hadv.remaining⟩
    · exact ⟨.second rfl (hloop.goto _) hi, remaining_goto (by simp [hpoint, MergePoint.rank])⟩
  | second hpoint hloop hused =>
    rcases hloop.next_second hfits hcount hpoint hused hnext with ⟨hadv, hi⟩ | ⟨rfl, hj⟩
    · exact ⟨.second (hadv.point.trans hpoint) hadv.loop hi, hadv.remaining⟩
    · exact ⟨.copy rfl (hloop.goto _) hused hj, remaining_goto (by simp [hpoint, MergePoint.rank])⟩
  | copy hpoint hloop hfirst hsecond =>
    simp only [Merging.next, hpoint, c.bytes_eq hcount, Option.elim_some,
      hloop.copyBack hfits hfirst hsecond, Option.some.injEq] at hnext
    subst hnext
    exact ⟨.returned rfl rfl, by simp [remaining, hpoint, MergePoint.rank]⟩
  | returned hpoint harea =>
    simp only [Merging.next, hpoint] at hnext
    cases hnext

/-- A call whose buffer is there is nowhere undefined, and at its end the merge of the runs lies
over both of them. -/
theorem Invariant.outcome (h : Invariant c area s) : s.point ≠ .undefined ∧
    (s.point = .returned →
      s.area = overwrite area c.start1 (mergeRuns (c.firstRun area) (c.secondRun area))) := by
  cases h with
  | entry => simp [start]
  | both hpoint => simp [hpoint]
  | first hpoint => simp [hpoint]
  | second hpoint => simp [hpoint]
  | copy hpoint => simp [hpoint]
  | returned hpoint harea => exact ⟨by simp [hpoint], fun _ => harea⟩

theorem next_isSome (hreturned : s.point ≠ .returned) (hdefined : s.point ≠ .undefined) :
    (s.next malloc c ()).isSome := by
  cases hpoint : s.point <;> simp_all [next]

section Run

variable {block : List (IndexS T)} {as : List Unit} (hfits : c.Fits area)
  (hcount : c.count < 2 ^ 30) (halloc : malloc.alloc (32 * c.count) = some block)

include hfits hcount halloc

theorem invariant_of_exec (hrun : exec (next malloc c) (start area) as = some s) :
    Invariant c area s :=
  exec_invariant (fun _ _ _ h hnext => (h.next hfits hcount halloc hnext).1) .entry hrun

theorem length_le_of_exec (hrun : exec (next malloc c) (start area) as = some s) :
    as.length ≤ 2 * c.count + 5 := by
  have hle := exec_length_le (I := Invariant c area) (m := remaining c)
    (fun _ _ _ h hnext => (h.next hfits hcount halloc hnext).1)
    (fun _ _ _ h hnext => (h.next hfits hcount halloc hnext).2) .entry hrun
  have hstart : (start area).remaining c = 2 * c.count + 5 := by
    simp [remaining, start, MergePoint.rank, Nat.add_comm]
  omega

theorem exists_returned : ∃ as s, exec (next malloc c) (start area) as = some s ∧
    s.point = .returned := by
  apply exists_exec_final (n := 2 * c.count + 5)
  · intro as t hrun hnot
    have hinvariant := invariant_of_exec hfits hcount halloc hrun
    exact ⟨(), next_isSome hnot hinvariant.outcome.1⟩
  · intro as t hrun
    exact length_le_of_exec hfits hcount halloc hrun

/-- The loops write what the merge of the other modules writes. -/
theorem area_eq_merge (hrun : exec (next malloc c) (start area) as = some s)
    (hpoint : s.point = .returned) :
    ∃ write, merge area c.start1 c.start2 c.count = some write ∧
      s.area = overwrite area write.1 write.2 := by
  have hinvariant := invariant_of_exec hfits hcount halloc hrun
  have hfirst := hfits.first
  have hsecond := hfits.second
  refine ⟨(c.start1, mergeRuns (c.firstRun area) (c.secondRun area)), ?_,
    hinvariant.outcome.2 hpoint⟩
  rw [merge, c.intMul_count, if_pos hcount, Option.bind_some, if_pos (by omega)]
  rfl

end Run

/-- A call without a buffer, which does not get to its end. -/
structure Null (s : Merging T) : Prop where
  temp : s.temp = none
  point : s.point ≠ .returned

section Null

omit [LT T] [DecidableLT T]

theorem Null.goto (h : Null s) {point : MergePoint} (hpoint : point ≠ .returned) :
    Null (s.goto point) := ⟨h.temp, hpoint⟩

theorem Null.store (h : Null s) (record : IndexS T) : Null (s.store record) := by
  rw [Merging.store, h.temp]
  exact h.goto (by decide)

theorem Null.take (h : Null s) (position : ℕ) : Null (s.take position) := by
  rw [Merging.take]
  split
  · exact h.store _
  · exact h.goto (by decide)

theorem Null.takeFirst (h : Null s) : Null (s.takeFirst c) := by
  obtain ⟨htemp, hpoint⟩ := h.take (c.start1 + s.i)
  exact ⟨htemp, hpoint⟩

theorem Null.takeSecond (h : Null s) : Null (s.takeSecond c) := by
  obtain ⟨htemp, hpoint⟩ := h.take (c.start2 + s.j)
  exact ⟨htemp, hpoint⟩

theorem Null.copyBack (h : Null s) (bytes : ℕ) : Null (s.copyBack c bytes) := by
  rw [Merging.copyBack, h.temp]
  exact h.goto (by decide)

end Null

/-- One step of a call whose buffer is not there. -/
theorem Null.next (h : Null s) (hfail : c.count < 2 ^ 30 → malloc.alloc (32 * c.count) = none)
    {u : Unit} (hnext : s.next malloc c u = some t) : Null t := by
  cases hpoint : s.point with
  | entry =>
    simp only [Merging.next, hpoint, Option.some.injEq] at hnext
    by_cases hcount : c.count < 2 ^ 30
    · rw [c.bytes_eq hcount, Option.elim_some, hfail hcount] at hnext
      subst hnext
      exact ⟨rfl, by simp⟩
    · rw [c.bytes_eq_none hcount, Option.elim_none] at hnext
      subst hnext
      exact h.goto (by decide)
  | both =>
    simp only [Merging.next, hpoint, Option.some.injEq] at hnext
    subst hnext
    split
    · split
      · split
        · exact h.takeFirst
        · exact h.takeSecond
      · exact h.goto (by decide)
    · exact h.goto (by decide)
  | first =>
    simp only [Merging.next, hpoint, Option.some.injEq] at hnext
    subst hnext
    split
    · exact h.takeFirst
    · exact h.goto (by decide)
  | second =>
    simp only [Merging.next, hpoint, Option.some.injEq] at hnext
    subst hnext
    split
    · exact h.takeSecond
    · exact h.goto (by decide)
  | copy =>
    simp only [Merging.next, hpoint, Option.some.injEq] at hnext
    subst hnext
    cases c.bytes with
    | none => exact h.goto (by decide)
    | some bytes => exact h.copyBack bytes
  | returned => exact absurd hpoint h.point
  | undefined =>
    simp only [Merging.next, hpoint] at hnext
    cases hnext

/-- Without a buffer the call does not get to its end. -/
theorem not_returned_of_exec {as : List Unit}
    (hfail : c.count < 2 ^ 30 → malloc.alloc (32 * c.count) = none)
    (hrun : exec (next malloc c) (start area) as = some s) : s.point ≠ .returned := by
  have hstart : Null (start area) := ⟨rfl, by simp [start]⟩
  exact (exec_invariant (fun _ _ _ h hnext => h.next hfail hnext) hstart hrun).point

end Merging

end OsispLabs.Lab6
