import OsispLabs.Lab5.Semaphore.Tokens
import OsispLabs.Lib.Refinement

/-!
# The critical sections of `lab5_1.c` line by line

Producers and consumers at a fixed capacity, stopped before every statement on the shared variables;
a `++` is a read and a write, and `memcpy` one step with the slot it goes to. As long as no thread
gets the mutex while another one is inside its critical section, the threads do what they do with
sections made in one step.
-/
namespace OsispLabs.Lab5.Semaphore
open Lib

/-- Where a producer stands in its loop: with a token, before the lock; before the read and the
write of `countAdd++`, `memcpy`, the read and the write of `++tail`, the test of `tail` and its
reset, the post and the unlock. -/
inductive ProducerLine (α : Type*) where
  | outside
  | token (msg : α)
  | counting (msg : α)
  | counted (msg : α) (countAdd : ℕ)
  | copying (msg : α)
  | advancing
  | advanced (tail : ℕ)
  | wrapping
  | zeroing
  | posting
  | posted
  deriving DecidableEq, Repr

/-- The same of a consumer, with `memset` after `memcpy`. -/
inductive ConsumerLine where
  | outside
  | token
  | counting
  | counted (countGet : ℕ)
  | copying
  | clearing
  | advancing
  | advanced (head : ℕ)
  | wrapping
  | zeroing
  | posting
  | posted
  deriving DecidableEq, Repr

/-- The queue, the threads and the two histories. -/
structure Lines (P C α : Type*) where
  ring : Ring α
  empty : ℕ
  full : ℕ
  mutex : Bool
  producer : P → ProducerLine α
  consumer : C → ConsumerLine
  produced : List α
  consumed : List (Slot α)

/-- `produce` is `generateMessage` and the `sem_wait` on `empty`. -/
inductive LineAction (P C α : Type*) where
  | produce (i : P) (msg : α)
  | producer (i : P)
  | consumer (j : C)
  deriving DecidableEq, Repr

variable {P C α : Type*} [DecidableEq P] [DecidableEq C]

namespace Lines

def start (n : ℕ) : Lines P C α :=
  ⟨.init n, n, 0, false, fun _ => .outside, fun _ => .outside, [], []⟩

def setProducer (s : Lines P C α) (i : P) (line : ProducerLine α) : Lines P C α :=
  { s with producer := Function.update s.producer i line }

def setConsumer (s : Lines P C α) (j : C) (line : ConsumerLine) : Lines P C α :=
  { s with consumer := Function.update s.consumer j line }

/-- The loop body of `workProducer` after its `sem_wait`. -/
def stepProducer (s : Lines P C α) (i : P) : Option (Lines P C α) :=
  match s.producer i with
  | .outside => none
  | .token msg =>
    if s.mutex then none else some { s.setProducer i (.counting msg) with mutex := true }
  | .counting msg => some (s.setProducer i (.counted msg s.ring.countAdd))
  | .counted msg countAdd => some { s.setProducer i (.copying msg) with
      ring := { s.ring with countAdd := countAdd + 1 }
      produced := s.produced ++ [msg] }
  | .copying msg => some { s.setProducer i .advancing with
      ring := { s.ring with buffer := s.ring.buffer.store s.ring.tail (.message msg) } }
  | .advancing => some (s.setProducer i (.advanced s.ring.tail))
  | .advanced tail => some { s.setProducer i .wrapping with
      ring := { s.ring with tail := tail + 1 } }
  | .wrapping =>
    some (s.setProducer i (if s.ring.tail = s.ring.sizeQueue then .zeroing else .posting))
  | .zeroing => some { s.setProducer i .posting with ring := { s.ring with tail := 0 } }
  | .posting => some { s.setProducer i .posted with full := s.full + 1 }
  | .posted => some { s.setProducer i .outside with mutex := false }

/-- The loop body of `workConsumer`. -/
def stepConsumer (s : Lines P C α) (j : C) : Option (Lines P C α) :=
  match s.consumer j with
  | .outside => if s.full = 0 then none else some { s.setConsumer j .token with full := s.full - 1 }
  | .token => if s.mutex then none else some { s.setConsumer j .counting with mutex := true }
  | .counting => some (s.setConsumer j (.counted s.ring.countGet))
  | .counted countGet => some { s.setConsumer j .copying with
      ring := { s.ring with countGet := countGet + 1 } }
  | .copying => some { s.setConsumer j .clearing with
      ring := { s.ring with buffer := (s.ring.buffer.load s.ring.head).2 }
      consumed := s.consumed ++ [(s.ring.buffer.load s.ring.head).1] }
  | .clearing => some { s.setConsumer j .advancing with
      ring := { s.ring with buffer := s.ring.buffer.store s.ring.head .zeroed } }
  | .advancing => some (s.setConsumer j (.advanced s.ring.head))
  | .advanced head => some { s.setConsumer j .wrapping with
      ring := { s.ring with head := head + 1 } }
  | .wrapping =>
    some (s.setConsumer j (if s.ring.head = s.ring.sizeQueue then .zeroing else .posting))
  | .zeroing => some { s.setConsumer j .posting with ring := { s.ring with head := 0 } }
  | .posting => some { s.setConsumer j .posted with empty := s.empty + 1 }
  | .posted => some { s.setConsumer j .outside with mutex := false }

def next (s : Lines P C α) : LineAction P C α → Option (Lines P C α)
  | .produce i msg =>
    match s.producer i with
    | .outside =>
      if s.empty = 0 then none
      else some { s.setProducer i (.token msg) with empty := s.empty - 1 }
    | _ => none
  | .producer i => s.stepProducer i
  | .consumer j => s.stepConsumer j

end Lines

/-- Between the lock and the unlock. -/
def ProducerLine.inside : ProducerLine α → Bool
  | .outside | .token _ => false
  | .counting _ | .counted _ _ | .copying _ | .advancing | .advanced _ | .wrapping | .zeroing
  | .posting | .posted => true

def ConsumerLine.inside : ConsumerLine → Bool
  | .outside | .token => false
  | .counting | .counted _ | .copying | .clearing | .advancing | .advanced _ | .wrapping | .zeroing
  | .posting | .posted => true

/-- The place in a section made in one step, which is the write of `countAdd`. -/
def ProducerLine.fused : ProducerLine α → ProducerPc α
  | .outside => .outside
  | .token msg => .token msg
  | .counting msg | .counted msg _ => .locked msg
  | .copying _ | .advancing | .advanced _ | .wrapping | .zeroing | .posting => .written
  | .posted => .posted

def ConsumerLine.fused : ConsumerLine → ConsumerPc
  | .outside => .outside
  | .token => .token
  | .counting | .counted _ => .locked
  | .copying | .clearing | .advancing | .advanced _ | .wrapping | .zeroing | .posting => .taken
  | .posted => .posted

/-- The ring when the producer has left its section. -/
def ProducerLine.finish (r : Ring α) : ProducerLine α → Ring α
  | .copying msg => { r with
      buffer := r.buffer.store r.tail (.message msg)
      tail := if r.tail + 1 = r.sizeQueue then 0 else r.tail + 1 }
  | .advancing => { r with tail := if r.tail + 1 = r.sizeQueue then 0 else r.tail + 1 }
  | .advanced tail => { r with tail := if tail + 1 = r.sizeQueue then 0 else tail + 1 }
  | .wrapping => { r with tail := if r.tail = r.sizeQueue then 0 else r.tail }
  | .zeroing => { r with tail := 0 }
  | .outside | .token _ | .counting _ | .counted _ _ | .posting | .posted => r

/-- The ring when the consumer has left its section. -/
def ConsumerLine.finish (r : Ring α) : ConsumerLine → Ring α
  | .copying => { r with
      buffer := (r.buffer.load r.head).2.store r.head .zeroed
      head := if r.head + 1 = r.sizeQueue then 0 else r.head + 1 }
  | .clearing => { r with
      buffer := r.buffer.store r.head .zeroed
      head := if r.head + 1 = r.sizeQueue then 0 else r.head + 1 }
  | .advancing => { r with head := if r.head + 1 = r.sizeQueue then 0 else r.head + 1 }
  | .advanced head => { r with head := if head + 1 = r.sizeQueue then 0 else head + 1 }
  | .wrapping => { r with head := if r.head = r.sizeQueue then 0 else r.head }
  | .zeroing => { r with head := 0 }
  | .outside | .token | .counting | .counted _ | .posting | .posted => r

/-- The message that the consumer has counted and not yet copied. -/
def ConsumerLine.reading (r : Ring α) : ConsumerLine → List (Slot α)
  | .copying => [(r.buffer.load r.head).1]
  | .outside | .token | .counting | .counted _ | .clearing | .advancing | .advanced _ | .wrapping
  | .zeroing | .posting | .posted => []

namespace Lines

/-- Nobody is inside a critical section. -/
def Vacant (s : Lines P C α) : Prop :=
  (∀ i, (s.producer i).inside = false) ∧ ∀ j, (s.consumer j).inside = false

/-- A step that takes the mutex finds nobody inside. -/
def EntersVacant (s : Lines P C α) : LineAction P C α → Prop
  | .produce _ _ => True
  | .producer i => (s.producer i).inside = false → s.Vacant
  | .consumer j => s.consumer j = .token → s.Vacant

instance [Fintype P] [Fintype C] (s : Lines P C α) : Decidable s.Vacant :=
  inferInstanceAs (Decidable (_ ∧ _))

instance [Fintype P] [Fintype C] (s : Lines P C α) : (a : LineAction P C α) →
    Decidable (s.EntersVacant a)
  | .produce _ _ => inferInstanceAs (Decidable True)
  | .producer i => inferInstanceAs (Decidable ((s.producer i).inside = false → s.Vacant))
  | .consumer j => inferInstanceAs (Decidable (s.consumer j = .token → s.Vacant))

/-- The ring when the thread `o` has left its section. -/
def finish (s : Lines P C α) : Option (P ⊕ C) → Ring α
  | none => s.ring
  | some (.inl i) => (s.producer i).finish s.ring
  | some (.inr j) => (s.consumer j).finish s.ring

/-- What `o` is about to copy. -/
def reading (s : Lines P C α) : Option (P ⊕ C) → List (Slot α)
  | none | some (.inl _) => []
  | some (.inr j) => (s.consumer j).reading s.ring

/-- At most the thread `o` is inside its section, which `u` has made as a whole. -/
structure Fuses (o : Option (P ⊕ C)) (s : Lines P C α) (u : State P C α) : Prop where
  onlyProducer : ∀ i, (s.producer i).inside = true → o = some (.inl i)
  onlyConsumer : ∀ j, (s.consumer j).inside = true → o = some (.inr j)
  countAdd : ∀ i msg n, s.producer i = .counted msg n → n = s.ring.countAdd
  countGet : ∀ j n, s.consumer j = .counted n → n = s.ring.countGet
  eq : u = ⟨s.finish o, s.empty, s.full, s.mutex, fun i => (s.producer i).fused,
    fun j => (s.consumer j).fused, .menu, s.produced, s.consumed ++ s.reading o⟩

end Lines

theorem ProducerLine.finish_of_not_inside {line : ProducerLine α} (h : line.inside = false)
    (r : Ring α) : line.finish r = r := by
  cases line with
  | outside | token msg => rfl
  | _ => cases h

theorem ConsumerLine.finish_of_not_inside {line : ConsumerLine} (h : line.inside = false)
    (r : Ring α) : line.finish r = r ∧ line.reading r = [] := by
  cases line with
  | outside | token => exact ⟨rfl, rfl⟩
  | _ => cases h

namespace Lines

variable {s t : Lines P C α} {u v : State P C α} {o : Option (P ⊕ C)} {i : P} {j : C}

omit [DecidableEq P] [DecidableEq C] in
/-- Where nobody is inside, any thread may be the next one. -/
theorem Fuses.enter (h : s.Fuses o u) (hs : s.Vacant) (w : P ⊕ C) : s.Fuses (some w) u := by
  have hfinish (o : Option (P ⊕ C)) : s.finish o = s.ring ∧ s.reading o = [] := by
    rcases o with _ | i | j
    · exact ⟨rfl, rfl⟩
    · exact ⟨ProducerLine.finish_of_not_inside (hs.1 i) _, rfl⟩
    · exact ConsumerLine.finish_of_not_inside (hs.2 j) _
  refine ⟨fun i hi => ?_, fun j hj => ?_, h.countAdd, h.countGet, ?_⟩
  · rw [hs.1 i] at hi
    cases hi
  · rw [hs.2 j] at hj
    cases hj
  · rw [h.eq, (hfinish o).1, (hfinish o).2, (hfinish (some w)).1, (hfinish (some w)).2]

omit [DecidableEq C] in
/-- A step of the producer that is inside, enters or leaves. -/
theorem Fuses.moveProducer (h : s.Fuses (some (.inl i)) u) (line : ProducerLine α) {ring : Ring α}
    {empty full : ℕ} {mutex : Bool} {produced : List α} (hget : ring.countGet = s.ring.countGet)
    (hline : ∀ msg n, line = .counted msg n → n = ring.countAdd) :
    Fuses (some (.inl i)) { s.setProducer i line with
        ring := ring, empty := empty, full := full, mutex := mutex, produced := produced }
      { u.setProducer i line.fused with
        ring := line.finish ring, empty := empty, full := full, mutex := mutex,
        produced := produced } := by
  have hne {k : P} (hk : k ≠ i) : (s.producer k).inside = false := by
    by_contra hin
    have hsome := Option.some.inj (h.onlyProducer k (Bool.not_eq_false _ ▸ hin))
    exact hk (Sum.inl.inj hsome).symm
  refine ⟨fun k hk => ?_, fun j hj => ?_, fun k msg n hk => ?_, fun j n hj => ?_, ?_⟩
  · by_cases hki : k = i
    · rw [hki]
    · simp [setProducer, hki, hne hki] at hk
  · exact h.onlyConsumer j hj
  · by_cases hki : k = i
    · subst hki
      exact hline msg n (by simpa [setProducer] using hk)
    · have hin := hne hki
      simp only [setProducer, ne_eq, hki, not_false_eq_true, Function.update_of_ne] at hk
      rw [hk] at hin
      cases hin
  · exact (h.countGet j n hj).trans hget.symm
  · rw [h.eq]
    simp [State.setProducer, finish, reading, setProducer,
      Function.apply_update fun _ => ProducerLine.fused]

omit [DecidableEq C] in
/-- A line of the producer that the fused section does not show. -/
theorem Fuses.stutterProducer (h : s.Fuses (some (.inl i)) u) {old : ProducerLine α}
    (hold : s.producer i = old) (line : ProducerLine α) {ring : Ring α}
    (hget : ring.countGet = s.ring.countGet)
    (hline : ∀ msg n, line = .counted msg n → n = ring.countAdd) (hfused : line.fused = old.fused)
    (hfinish : line.finish ring = old.finish s.ring) :
    Fuses (some (.inl i)) { s.setProducer i line with ring := ring } u := by
  have hmove : Fuses (some (.inl i)) { s.setProducer i line with ring := ring } _ :=
    h.moveProducer line hget hline
  have hu : { u.setProducer i line.fused with
      ring := line.finish ring, empty := s.empty, full := s.full, mutex := s.mutex,
      produced := s.produced } = u := by
    rw [h.eq]
    simp [State.setProducer, finish, reading, hold, hfused, hfinish]
  rw [← hu]
  exact hmove

omit [DecidableEq P] in
theorem Fuses.moveConsumer (h : s.Fuses (some (.inr j)) u) (line : ConsumerLine) {ring : Ring α}
    {empty full : ℕ} {mutex : Bool} {consumed : List (Slot α)}
    (hadd : ring.countAdd = s.ring.countAdd)
    (hline : ∀ n, line = .counted n → n = ring.countGet) :
    Fuses (some (.inr j)) { s.setConsumer j line with
        ring := ring, empty := empty, full := full, mutex := mutex, consumed := consumed }
      { u.setConsumer j line.fused with
        ring := line.finish ring, empty := empty, full := full, mutex := mutex,
        consumed := consumed ++ line.reading ring } := by
  have hne {k : C} (hk : k ≠ j) : (s.consumer k).inside = false := by
    by_contra hin
    have hsome := Option.some.inj (h.onlyConsumer k (Bool.not_eq_false _ ▸ hin))
    exact hk (Sum.inr.inj hsome).symm
  refine ⟨fun i hi => ?_, fun k hk => ?_, fun i msg n hi => ?_, fun k n hk => ?_, ?_⟩
  · exact h.onlyProducer i hi
  · by_cases hkj : k = j
    · rw [hkj]
    · simp [setConsumer, hkj, hne hkj] at hk
  · exact (h.countAdd i msg n hi).trans hadd.symm
  · by_cases hkj : k = j
    · subst hkj
      exact hline n (by simpa [setConsumer] using hk)
    · have hin := hne hkj
      simp only [setConsumer, ne_eq, hkj, not_false_eq_true, Function.update_of_ne] at hk
      rw [hk] at hin
      cases hin
  · rw [h.eq]
    simp [State.setConsumer, finish, reading, setConsumer,
      Function.apply_update fun _ => ConsumerLine.fused]

omit [DecidableEq P] in
theorem Fuses.stutterConsumer (h : s.Fuses (some (.inr j)) u) {old : ConsumerLine}
    (hold : s.consumer j = old) (line : ConsumerLine) {ring : Ring α} {consumed : List (Slot α)}
    (hadd : ring.countAdd = s.ring.countAdd) (hline : ∀ n, line = .counted n → n = ring.countGet)
    (hfused : line.fused = old.fused) (hfinish : line.finish ring = old.finish s.ring)
    (hreading : consumed ++ line.reading ring = s.consumed ++ old.reading s.ring) :
    Fuses (some (.inr j)) { s.setConsumer j line with ring := ring, consumed := consumed } u := by
  have hmove : Fuses (some (.inr j))
      { s.setConsumer j line with ring := ring, consumed := consumed } _ :=
    h.moveConsumer line hadd hline
  have hu : { u.setConsumer j line.fused with
      ring := line.finish ring, empty := s.empty, full := s.full, mutex := s.mutex,
      consumed := consumed ++ line.reading ring } = u := by
    rw [h.eq]
    simp [State.setConsumer, finish, reading, hold, hfused, hfinish, hreading]
  rw [← hu]
  exact hmove

omit [DecidableEq C] in
/-- A step outside the sections leaves the thread that is inside one. -/
theorem Fuses.stayProducer (h : s.Fuses o u) {line : ProducerLine α}
    (hold : (s.producer i).inside = false) (hnew : line.inside = false) {empty : ℕ} {mutex : Bool} :
    Fuses o { s.setProducer i line with empty := empty, mutex := mutex }
      { u.setProducer i line.fused with empty := empty, mutex := mutex } := by
  refine ⟨fun k hk => ?_, h.onlyConsumer, fun k msg n hk => ?_, h.countGet, ?_⟩
  · by_cases hki : k = i
    · subst hki
      simp [setProducer, hnew] at hk
    · exact h.onlyProducer k (by simpa [setProducer, hki] using hk)
  · by_cases hki : k = i
    · subst hki
      obtain rfl : line = .counted msg n := by simpa [setProducer] using hk
      cases hnew
    · exact h.countAdd k msg n (by simpa [setProducer, hki] using hk)
  · have hfinish : finish { s.setProducer i line with empty := empty, mutex := mutex } o =
        s.finish o := by
      rcases o with _ | k | k
      · rfl
      · by_cases hki : k = i
        · subst hki
          simp [finish, setProducer, ProducerLine.finish_of_not_inside hold,
            ProducerLine.finish_of_not_inside hnew]
        · simp [finish, setProducer, hki]
      · rfl
    have hreading : reading { s.setProducer i line with empty := empty, mutex := mutex } o =
        s.reading o := by
      rcases o with _ | k | k <;> rfl
    rw [h.eq, hfinish, hreading]
    simp [State.setProducer, setProducer,
      Function.apply_update fun _ => ProducerLine.fused]

omit [DecidableEq P] in
theorem Fuses.stayConsumer (h : s.Fuses o u) {line : ConsumerLine}
    (hold : (s.consumer j).inside = false) (hnew : line.inside = false) {full : ℕ} {mutex : Bool} :
    Fuses o { s.setConsumer j line with full := full, mutex := mutex }
      { u.setConsumer j line.fused with full := full, mutex := mutex } := by
  refine ⟨h.onlyProducer, fun k hk => ?_, h.countAdd, fun k n hk => ?_, ?_⟩
  · by_cases hkj : k = j
    · subst hkj
      simp [setConsumer, hnew] at hk
    · exact h.onlyConsumer k (by simpa [setConsumer, hkj] using hk)
  · by_cases hkj : k = j
    · subst hkj
      obtain rfl : line = .counted n := by simpa [setConsumer] using hk
      cases hnew
    · exact h.countGet k n (by simpa [setConsumer, hkj] using hk)
  · have hsame : finish { s.setConsumer j line with full := full, mutex := mutex } o =
        s.finish o ∧
        reading { s.setConsumer j line with full := full, mutex := mutex } o = s.reading o := by
      rcases o with _ | k | k
      · exact ⟨rfl, rfl⟩
      · exact ⟨rfl, rfl⟩
      · by_cases hkj : k = j
        · subst hkj
          obtain ⟨hfinish, hreading⟩ := ConsumerLine.finish_of_not_inside hold s.ring
          obtain ⟨hfinish', hreading'⟩ := ConsumerLine.finish_of_not_inside hnew s.ring
          simp [finish, reading, setConsumer, hfinish, hreading, hfinish', hreading']
        · simp [finish, reading, setConsumer, hkj]
    rw [h.eq, hsame.1, hsame.2]
    simp [State.setConsumer, setConsumer,
      Function.apply_update fun _ => ConsumerLine.fused]

/-- The state is that of the fused sections before the step or after one of its operations. -/
def FusedStep (u : State P C α) (a : Action P C α) (t : Lines P C α) : Prop :=
  ∃ o v, t.Fuses o v ∧ (v = u ∨ u.next a = some v)

/-- Each line of `workProducer` is an operation of the fused section or does not show in it. -/
theorem stepProducer_fuses (h : s.Fuses o u) (hok : (s.producer i).inside = false → s.Vacant)
    (hstep : s.stepProducer i = some t) : FusedStep u (.producer i) t := by
  have h' : s.Fuses (some (.inl i)) u := by
    by_cases hin : (s.producer i).inside = true
    · exact h.onlyProducer i hin ▸ h
    · exact h.enter (hok (Bool.eq_false_iff.mpr hin)) _
  unfold stepProducer at hstep
  cases hline : s.producer i with
  | outside => simp [hline] at hstep
  | token msg =>
    simp only [hline] at hstep
    split at hstep <;> cases hstep
    rename_i hfree
    refine ⟨_, _, h'.moveProducer (.counting msg) rfl (by simp), .inr ?_⟩
    rw [h'.eq]
    simp [State.next, State.stepProducer, hline, ProducerLine.fused, finish, reading,
      ProducerLine.finish, State.setProducer, setProducer, hfree]
  | counting msg =>
    simp only [hline] at hstep
    cases hstep
    exact ⟨_, _, h'.stutterProducer hline (.counted msg s.ring.countAdd) rfl (by simp) rfl rfl,
      .inl rfl⟩
  | counted msg n =>
    simp only [hline] at hstep
    cases hstep
    have hn := h'.countAdd i msg n hline
    refine ⟨_, _, h'.moveProducer (.copying msg) rfl (by simp), .inr ?_⟩
    rw [h'.eq]
    simp [State.next, State.stepProducer, hline, ProducerLine.fused, finish, reading,
      ProducerLine.finish, State.setProducer, setProducer, Ring.put, hn]
  | copying msg =>
    simp only [hline] at hstep
    cases hstep
    exact ⟨_, _, h'.stutterProducer hline .advancing rfl (by simp) rfl rfl, .inl rfl⟩
  | advancing =>
    simp only [hline] at hstep
    cases hstep
    exact ⟨_, _, h'.stutterProducer hline (.advanced s.ring.tail) rfl (by simp) rfl rfl, .inl rfl⟩
  | advanced n =>
    simp only [hline] at hstep
    cases hstep
    exact ⟨_, _, h'.stutterProducer hline .wrapping rfl (by simp) rfl rfl, .inl rfl⟩
  | wrapping =>
    simp only [hline] at hstep
    cases hstep
    split
    case isTrue hwrap =>
      refine ⟨_, _, h'.stutterProducer hline .zeroing rfl (by simp) rfl ?_, .inl rfl⟩
      simp [ProducerLine.finish, hwrap]
    case isFalse hwrap =>
      refine ⟨_, _, h'.stutterProducer hline .posting rfl (by simp) rfl ?_, .inl rfl⟩
      simp [ProducerLine.finish, hwrap]
  | zeroing =>
    simp only [hline] at hstep
    cases hstep
    exact ⟨_, _, h'.stutterProducer hline .posting rfl (by simp) rfl rfl, .inl rfl⟩
  | posting =>
    simp only [hline] at hstep
    cases hstep
    refine ⟨_, _, h'.moveProducer .posted rfl (by simp), .inr ?_⟩
    rw [h'.eq]
    simp [State.next, State.stepProducer, hline, ProducerLine.fused, finish, reading,
      ProducerLine.finish, State.setProducer, setProducer]
  | posted =>
    simp only [hline] at hstep
    cases hstep
    refine ⟨_, _, h'.moveProducer .outside rfl (by simp), .inr ?_⟩
    rw [h'.eq]
    simp [State.next, State.stepProducer, hline, ProducerLine.fused, finish, reading,
      ProducerLine.finish, State.setProducer, setProducer]

theorem stepConsumer_fuses (h : s.Fuses o u) (hok : s.consumer j = .token → s.Vacant)
    (hstep : s.stepConsumer j = some t) : FusedStep u (.consumer j) t := by
  by_cases hout : s.consumer j = .outside
  · simp only [stepConsumer, hout] at hstep
    split at hstep <;> cases hstep
    rename_i hfull
    have hstay : Fuses o { s.setConsumer j .token with full := s.full - 1 } _ :=
      h.stayConsumer (by rw [hout]; rfl) rfl
    refine ⟨o, _, hstay, .inr ?_⟩
    rw [h.eq]
    simp [State.next, State.stepConsumer, hout, ConsumerLine.fused, State.setConsumer, setConsumer,
      hfull]
  have h' : s.Fuses (some (.inr j)) u := by
    by_cases hin : (s.consumer j).inside = true
    · exact h.onlyConsumer j hin ▸ h
    · refine h.enter (hok ?_) _
      cases hline : s.consumer j with
      | outside => exact absurd hline hout
      | token => rfl
      | _ => simp [hline, ConsumerLine.inside] at hin
  unfold stepConsumer at hstep
  cases hline : s.consumer j with
  | outside => exact absurd hline hout
  | token =>
    simp only [hline] at hstep
    split at hstep <;> cases hstep
    rename_i hfree
    refine ⟨_, _, h'.moveConsumer .counting rfl (by simp), .inr ?_⟩
    rw [h'.eq]
    simp [State.next, State.stepConsumer, hline, ConsumerLine.fused, finish, reading,
      ConsumerLine.finish, ConsumerLine.reading, State.setConsumer, setConsumer, hfree]
  | counting =>
    simp only [hline] at hstep
    cases hstep
    exact ⟨_, _, h'.stutterConsumer hline (.counted s.ring.countGet) rfl (by simp) rfl rfl rfl,
      .inl rfl⟩
  | counted n =>
    simp only [hline] at hstep
    cases hstep
    have hn := h'.countGet j n hline
    refine ⟨_, _, h'.moveConsumer .copying rfl (by simp), .inr ?_⟩
    rw [h'.eq]
    simp [State.next, State.stepConsumer, hline, ConsumerLine.fused, finish, reading,
      ConsumerLine.finish, ConsumerLine.reading, State.setConsumer, setConsumer, Ring.take, hn]
  | copying =>
    simp only [hline] at hstep
    cases hstep
    exact ⟨_, _, h'.stutterConsumer hline .clearing rfl (by simp) rfl rfl (List.append_nil _),
      .inl rfl⟩
  | clearing =>
    simp only [hline] at hstep
    cases hstep
    exact ⟨_, _, h'.stutterConsumer hline .advancing rfl (by simp) rfl rfl rfl, .inl rfl⟩
  | advancing =>
    simp only [hline] at hstep
    cases hstep
    exact ⟨_, _, h'.stutterConsumer hline (.advanced s.ring.head) rfl (by simp) rfl rfl rfl,
      .inl rfl⟩
  | advanced n =>
    simp only [hline] at hstep
    cases hstep
    exact ⟨_, _, h'.stutterConsumer hline .wrapping rfl (by simp) rfl rfl rfl, .inl rfl⟩
  | wrapping =>
    simp only [hline] at hstep
    cases hstep
    split
    case isTrue hwrap =>
      refine ⟨_, _, h'.stutterConsumer hline .zeroing rfl (by simp) rfl ?_ rfl, .inl rfl⟩
      simp [ConsumerLine.finish, hwrap]
    case isFalse hwrap =>
      refine ⟨_, _, h'.stutterConsumer hline .posting rfl (by simp) rfl ?_ rfl, .inl rfl⟩
      simp [ConsumerLine.finish, hwrap]
  | zeroing =>
    simp only [hline] at hstep
    cases hstep
    exact ⟨_, _, h'.stutterConsumer hline .posting rfl (by simp) rfl rfl rfl, .inl rfl⟩
  | posting =>
    simp only [hline] at hstep
    cases hstep
    refine ⟨_, _, h'.moveConsumer .posted rfl (by simp), .inr ?_⟩
    rw [h'.eq]
    simp [State.next, State.stepConsumer, hline, ConsumerLine.fused, finish, reading,
      ConsumerLine.finish, ConsumerLine.reading, State.setConsumer, setConsumer]
  | posted =>
    simp only [hline] at hstep
    cases hstep
    refine ⟨_, _, h'.moveConsumer .outside rfl (by simp), .inr ?_⟩
    rw [h'.eq]
    simp [State.next, State.stepConsumer, hline, ConsumerLine.fused, finish, reading,
      ConsumerLine.finish, ConsumerLine.reading, State.setConsumer, setConsumer]

/-- The operation of the fused sections that the line is or belongs to. -/
def fusedAction : LineAction P C α → Action P C α
  | .produce i msg => .produce i msg
  | .producer i => .producer i
  | .consumer j => .consumer j

/-- As long as the mutex is taken only where nobody is inside, each line is an operation of the
fused sections or does not show in them. -/
theorem next_fuses {a : LineAction P C α} (h : s.Fuses o u) (hok : s.EntersVacant a)
    (hnext : s.next a = some t) : FusedStep u (fusedAction a) t := by
  cases a with
  | produce i msg =>
    simp only [next] at hnext
    split at hnext
    case h_2 => cases hnext
    case h_1 hline =>
      split at hnext <;> cases hnext
      rename_i hempty
      have hstay : Fuses o { s.setProducer i (.token msg) with empty := s.empty - 1 } _ :=
        h.stayProducer (by rw [hline]; rfl) rfl
      refine ⟨o, _, hstay, .inr ?_⟩
      rw [h.eq]
      simp [fusedAction, State.next, hline, ProducerLine.fused, State.setProducer, setProducer,
        hempty]
  | producer i => exact stepProducer_fuses h hok hnext
  | consumer j => exact stepConsumer_fuses h hok hnext

variable [Fintype P] [Fintype C]

omit [DecidableEq P] [DecidableEq C] in
/-- A mutex that is free has nobody inside. -/
theorem Fuses.vacant (h : s.Fuses o u) (hu : u.Exclusive) (hfree : s.mutex = false) :
    s.Vacant := by
  have hmutex : u.mutex = false := by
    rw [h.eq]
    exact hfree
  constructor
  · intro i
    by_contra hin
    have hpc : u.producer i = (s.producer i).fused := by rw [h.eq]
    have howns : (u.producer i).owns = 1 := by
      rw [hpc]
      cases hline : s.producer i <;> simp_all [ProducerLine.inside, ProducerLine.fused,
        ProducerPc.owns]
    rw [hu.mutex_of_producer howns] at hmutex
    cases hmutex
  · intro j
    by_contra hin
    have hpc : u.consumer j = (s.consumer j).fused := by rw [h.eq]
    have howns : (u.consumer j).owns = 1 := by
      rw [hpc]
      cases hline : s.consumer j <;> simp_all [ConsumerLine.inside, ConsumerLine.fused,
        ConsumerPc.owns]
    rw [hu.mutex_of_consumer howns] at hmutex
    cases hmutex

theorem Fuses.entersVacant {a : LineAction P C α} (h : s.Fuses o u) (hu : u.Exclusive)
    (hnext : s.next a = some t) : s.EntersVacant a := by
  cases a with
  | produce i msg => trivial
  | producer i =>
    intro hin
    refine h.vacant hu ?_
    simp only [next, stepProducer] at hnext
    cases hline : s.producer i with
    | token msg =>
      simp only [hline] at hnext
      split at hnext
      · cases hnext
      · simpa using ‹¬ s.mutex = true›
    | outside => simp [hline] at hnext
    | _ => simp [hline, ProducerLine.inside] at hin
  | consumer j =>
    intro hline
    refine h.vacant hu ?_
    simp only [next, stepConsumer, hline] at hnext
    split at hnext
    · cases hnext
    · simpa using ‹¬ s.mutex = true›

omit [DecidableEq P] [DecidableEq C] [Fintype P] [Fintype C] in
theorem start_fuses (n : ℕ) : Fuses none (start n) (State.start n : State P C α) := by
  refine ⟨fun i hi => ?_, fun j hj => ?_, fun i msg n hi => ?_, fun j n hj => ?_, rfl⟩
  · cases hi
  · cases hj
  · cases hi
  · cases hj

/-- Without cancellations the threads stopped at every line refine those with fused sections. -/
theorem next_refines :
    Refines next State.next fun (s : Lines P C α) u => (∃ o, s.Fuses o u) ∧ u.Lawful := by
  rintro s u a t ⟨⟨o, h⟩, hu⟩ hnext
  obtain ⟨o', v, hv, rfl | hstep⟩ := next_fuses h (h.entersVacant hu.exclusive hnext) hnext
  · exact ⟨[], v, rfl, ⟨o', hv⟩, hu⟩
  · refine ⟨[fusedAction a], v, ?_, ⟨o', hv⟩, State.next_lawful _ _ _ hu hstep⟩
    rw [exec_single, hstep]

theorem run_refines {n : ℕ} {as : List (LineAction P C α)}
    (hrun : exec next (start n) as = some s) :
    ∃ bs u, exec State.next (State.start n) bs = some u ∧ ∃ o, s.Fuses o u := by
  obtain ⟨bs, u, hbs, ho, -⟩ :=
    next_refines.run ⟨⟨none, start_fuses n⟩, State.start_lawful n⟩ hrun
  exact ⟨bs, u, hbs, ho⟩

end Lines

end OsispLabs.Lab5.Semaphore
