import OsispLabs.Lab3.Commands

/-!
# The child table over whole runs of `lab3.c`

While every `fork` succeeds, every `wait` returns the child just killed and the handler runs only
where `childCount` is up to date, the entries below a bound that depends on the statement are
distinct unreaped children. An entry that a failed `fork` or a `wait` has overwritten is not.
-/
namespace OsispLabs.Lab3
open Lib

/-- `childCount` counts the entries that hold unreaped children; a `k` on the empty table does not
change it. -/
def Pc.UpToDate (childCount : ℤ) : Pc → Prop
  | .forking | .storing _ | .updating false => False
  | .updating true => childCount = -1
  | .killing _ i | .reaping _ i => i = childCount
  | .menu | .signalling _ _ | .arming _ | .resuming _ => True

instance (childCount : ℤ) : (pc : Pc) → Decidable (pc.UpToDate childCount)
  | .forking | .storing _ | .updating false => isFalse id
  | .updating true => inferInstanceAs (Decidable (_ = _))
  | .killing _ _ | .reaping _ _ => inferInstanceAs (Decidable (_ = _))
  | .menu | .signalling _ _ | .arming _ | .resuming _ => isTrue trivial

/-- A `wait` that returns `chpid` returns the child just killed. -/
def Pc.Reaps (childPidMas : ℤ → ℤ) (chpid : ℤ) : Pc → Prop
  | .reaping _ i => chpid = childPidMas i
  | .menu | .forking | .storing _ | .killing _ _ | .updating _ | .signalling _ _ | .arming _
  | .resuming _ => True

instance (childPidMas : ℤ → ℤ) (chpid : ℤ) : (pc : Pc) → Decidable (pc.Reaps childPidMas chpid)
  | .reaping _ _ => inferInstanceAs (Decidable (_ = _))
  | .menu | .forking | .storing _ | .killing _ _ | .updating _ | .signalling _ _ | .arming _
  | .resuming _ => isTrue trivial

namespace State

/-- The steps that keep the table: `+` below its end and with a successful `fork`, a number that
does not come out negative, a `wait` for the child just killed, and an alarm in time. -/
def Orderly (s : State) : Action → Prop
  | .command .plus => s.childCount + 1 < MAX_CHILD
  | .command (.s (some digits)) | .command (.g (some digits)) => 0 ≤ atoi digits
  | .fork chpid => chpid ≠ none
  | .wait (some (chpid, _)) => s.pc.Reaps s.childPidMas chpid
  | .alarm => s.pc.UpToDate s.childCount
  | .command .minus | .command .k | .command (.s none) | .command (.g none) | .command (.p _)
  | .wait none | .main => True

instance (s : State) : (a : Action) → Decidable (s.Orderly a)
  | .command .plus => inferInstanceAs (Decidable (_ < _))
  | .command (.s (some _)) | .command (.g (some _)) => inferInstanceAs (Decidable (_ ≤ _))
  | .fork _ => inferInstanceAs (Decidable (_ ≠ _))
  | .wait (some (_, _)) => inferInstanceAs (Decidable (Pc.Reaps _ _ _))
  | .alarm => inferInstanceAs (Decidable (Pc.UpToDate _ _))
  | .command .minus | .command .k | .command (.s none) | .command (.g none) | .command (.p _)
  | .wait none | .main => isTrue trivial

/-- The number of entries that hold unreaped children. -/
def listed (s : State) : ℤ :=
  match s.pc with
  | .forking | .storing _ | .updating false => s.childCount
  | .killing _ i | .reaping _ i => i + 1
  | .updating true => 0
  | .menu | .signalling _ _ | .arming _ | .resuming _ => s.childCount + 1

/-- The first `m` entries are distinct unreaped children. -/
structure Lists (s : State) (m : ℤ) : Prop where
  owned : ∀ i, 0 ≤ i → i < m → s.childPidMas i ∈ s.children
  distinct : ∀ i j, 0 ≤ i → i < m → 0 ≤ j → j < m → s.childPidMas i = s.childPidMas j → i = j

/-- The entry that a statement is about to use. -/
def Placed (s : State) : Prop :=
  match s.pc with
  | .menu => True
  | .forking => 0 ≤ s.childCount
  | .storing chpid => 0 ≤ s.childCount ∧ chpid ∈ s.children ∧
      ∀ j, 0 ≤ j → j < s.childCount → s.childPidMas j ≠ chpid
  | .killing all i | .reaping all i => 0 ≤ i ∧ i ≤ s.childCount ∧ (all = false → i = s.childCount)
  | .updating all => all = false → 0 ≤ s.childCount
  | .signalling i n => 0 ≤ i ∧ ∀ k, n = some k → 0 ≤ k ∧ k ≤ s.childCount
  | .arming n | .resuming n => 0 ≤ n ∧ n ≤ s.childCount

structure Lawful (s : State) : Prop where
  low : -1 ≤ s.childCount
  high : s.childCount < MAX_CHILD
  placed : s.Placed
  lists : s.Lists s.listed
  safe : s.Safe

theorem start_lawful : start.Lawful where
  low := by decide
  high := by decide
  placed := trivial
  lists := by
    constructor
    · intro i hi hlt
      change i < -1 + 1 at hlt
      omega
    · intro i j hi hlt
      change i < -1 + 1 at hlt
      omega
  safe := ⟨fun _ h => absurd h (by simp [start]), fun _ h => absurd h (by simp [start])⟩

variable {s t : State}

/-- One more use of an entry of the table. -/
theorem Safe.inTable_append (hs : s.Safe) {i : ℤ} (hlow : 0 ≤ i) (hhigh : i < MAX_CHILD) :
    ∀ j ∈ s.indices ++ [i], 0 ≤ j ∧ j < MAX_CHILD := by
  intro j hj
  rcases List.mem_append.mp hj with hj | hj
  · exact hs.inTable j hj
  · obtain rfl := List.mem_singleton.mp hj
    exact ⟨hlow, hhigh⟩

theorem Safe.kill (hs : s.Safe) {i : ℤ} (hlow : 0 ≤ i) (hhigh : i < MAX_CHILD)
    (howned : s.childPidMas i ∈ s.children) : (s.kill i).Safe where
  owned k hk := by
    rcases List.mem_append.mp hk with hk | hk
    · exact hs.owned k hk
    · obtain rfl := List.mem_singleton.mp hk
      exact howned
  inTable := hs.inTable_append hlow hhigh

theorem Safe.store (hs : s.Safe) {i : ℤ} (hlow : 0 ≤ i) (hhigh : i < MAX_CHILD) (v : ℤ) :
    (s.store i v).Safe where
  owned := hs.owned
  inTable := hs.inTable_append hlow hhigh

theorem killFirst_succ (s : State) (n : ℕ) : s.killFirst (n + 1) = (s.killFirst n).kill n := by
  simp [killFirst, List.range_succ]

/-- Signals leave the table and the children alone. -/
theorem killFirst_frame (s : State) (n : ℕ) :
    s.killFirst n =
      { s with kills := (s.killFirst n).kills, indices := (s.killFirst n).indices } := by
  induction n with
  | zero => rfl
  | succ n ih =>
    rw [killFirst_succ, kill, ih]

theorem Safe.killFirst (hs : s.Safe) {m : ℤ} (hlists : s.Lists m) (hm : m ≤ MAX_CHILD) (n : ℕ)
    (hn : n ≤ m) : (s.killFirst n).Safe := by
  induction n with
  | zero => exact hs
  | succ n ih =>
    push_cast at hn
    have hframe := killFirst_frame s n
    rw [killFirst_succ]
    refine (ih (by omega)).kill (by omega) (by omega) ?_
    rw [hframe]
    exact hlists.owned n (by omega) (by omega)

/-- The table, the children and the number of entries are all that counts. -/
theorem Lists.frame {m n : ℤ} (h : s.Lists m) (hmas : t.childPidMas = s.childPidMas)
    (hchildren : t.children = s.children) (hn : n = m) : t.Lists n := by
  subst hn
  constructor
  · rw [hmas, hchildren]
    exact h.owned
  · rw [hmas]
    exact h.distinct

/-- A `kill` on a listed entry, after which the next statement is at `pc`. -/
theorem Lawful.kill (hs : s.Lawful) {i : ℤ} (hlow : 0 ≤ i) (hle : i ≤ s.childCount)
    (hlisted : i < s.listed) {pc : Pc} (hplaced : ({ s with pc := pc } : State).Placed)
    (hpc : ({ s with pc := pc } : State).listed = s.listed) :
    ({ s.kill i with pc := pc } : State).Lawful where
  low := hs.low
  high := hs.high
  placed := hplaced
  lists := hs.lists.frame rfl rfl hpc
  safe := by
    have hkill := hs.safe.kill hlow (by have := hs.high; omega) (hs.lists.owned i hlow hlisted)
    exact ⟨hkill.owned, hkill.inTable⟩

/-- A statement that only moves on, or arms the timer. -/
theorem Lawful.move (hs : s.Lawful) {armed : Bool} {pc : Pc}
    (hplaced : ({ s with pc := pc } : State).Placed)
    (hpc : ({ s with pc := pc } : State).listed = s.listed) :
    ({ s with armed := armed, pc := pc } : State).Lawful where
  low := hs.low
  high := hs.high
  placed := hplaced
  lists := hs.lists.frame rfl rfl hpc
  safe := ⟨hs.safe.owned, hs.safe.inTable⟩

theorem Lawful.signalOne (hs : s.Lawful) (hmenu : s.pc = .menu) {digits : Option ℕ}
    (hpos : ∀ d, digits = some d → 0 ≤ atoi d) (h : s.signalOne digits = some t) : t.Lawful := by
  have hlisted : s.listed = s.childCount + 1 := by simp only [listed, hmenu]
  cases digits with
  | some d =>
    have hlow := hpos d rfl
    simp only [State.signalOne] at h
    split_ifs at h with hd hle
    · obtain rfl := Option.some.inj h
      have hplaced : ({ s with pc := s.pc } : State).Placed := hs.placed
      exact hs.kill hlow hle (by omega) hplaced rfl
    · obtain rfl := Option.some.inj h
      exact hs
  | none =>
    obtain rfl := Option.some.inj h
    exact hs.move ⟨Int.le_refl 0, nofun⟩ hlisted.symm

theorem Lawful.command (hs : s.Lawful) (hmenu : s.pc = .menu) {c : Command}
    (hok : s.Orderly (.command c)) (h : s.command c = some t) : t.Lawful := by
  have hlisted : s.listed = s.childCount + 1 := by simp only [listed, hmenu]
  have hlow := hs.low
  cases c with
  | plus =>
    obtain rfl := Option.some.inj h
    have hlists := hs.lists
    rw [hlisted] at hlists
    exact ⟨by change -1 ≤ s.childCount + 1; omega, hok, by change 0 ≤ s.childCount + 1; omega,
      ⟨hlists.owned, hlists.distinct⟩, ⟨hs.safe.owned, hs.safe.inTable⟩⟩
  | minus =>
    simp only [State.command] at h
    split_ifs at h with hnone
    · obtain rfl := Option.some.inj h
      exact hs.move ⟨by omega, Int.le_refl _, fun _ => rfl⟩ hlisted.symm
    · obtain rfl := Option.some.inj h
      exact hs
  | k =>
    simp only [State.command] at h
    split_ifs at h with hsome
    · obtain rfl := Option.some.inj h
      exact hs.move ⟨by omega, Int.le_refl _, nofun⟩ hlisted.symm
    · obtain rfl := Option.some.inj h
      refine hs.move nofun ?_
      change 0 = s.listed
      omega
  | s digits => exact hs.signalOne hmenu (fun d hd => by subst hd; exact hok) h
  | g digits => exact hs.signalOne hmenu (fun d hd => by subst hd; exact hok) h
  | p n =>
    simp only [State.command] at h
    split_ifs at h with hn
    · obtain rfl := Option.some.inj h
      refine hs.move ⟨Int.le_refl 0, fun k hk => ?_⟩ hlisted.symm
      obtain rfl := Option.some.inj hk
      exact ⟨hn.2, hn.1⟩
    · obtain rfl := Option.some.inj h
      exact hs

/-- Writing behind the listed entries keeps them. -/
theorem Lists.store {m : ℤ} (hs : s.Lists m) {i : ℤ} (hi : m ≤ i) (v : ℤ) :
    (s.store i v).Lists m where
  owned j hlow hlt := by
    change Function.update s.childPidMas i v j ∈ s.children
    rw [Function.update_of_ne (by omega)]
    exact hs.owned j hlow hlt
  distinct j k hj hjm hk hkm heq := by
    change Function.update s.childPidMas i v j = Function.update s.childPidMas i v k at heq
    rw [Function.update_of_ne (by omega), Function.update_of_ne (by omega)] at heq
    exact hs.distinct j k hj hjm hk hkm heq

/-- The result of `fork` becomes the next listed entry. -/
theorem Lists.push {m chpid : ℤ} (hs : s.Lists m) (hchild : chpid ∈ s.children)
    (hnew : ∀ j, 0 ≤ j → j < m → s.childPidMas j ≠ chpid) : (s.store m chpid).Lists (m + 1) where
  owned j hlow hlt := by
    change Function.update s.childPidMas m chpid j ∈ s.children
    by_cases hj : j = m
    · rw [hj, Function.update_self]
      exact hchild
    · rw [Function.update_of_ne hj]
      exact hs.owned j hlow (by omega)
  distinct j k hj hjm hk hkm heq := by
    change Function.update s.childPidMas m chpid j = Function.update s.childPidMas m chpid k at heq
    by_cases hjm' : j = m <;> by_cases hkm' : k = m
    · omega
    · subst hjm'
      rw [Function.update_self, Function.update_of_ne hkm'] at heq
      exact absurd heq.symm (hnew k hk (by omega))
    · subst hkm'
      rw [Function.update_self, Function.update_of_ne hjm'] at heq
      exact absurd heq (hnew j hj (by omega))
    · rw [Function.update_of_ne hjm', Function.update_of_ne hkm'] at heq
      exact hs.distinct j k hj (by omega) hk (by omega) heq

/-- Reaping the last listed child leaves the entries before it. -/
theorem Lists.reap {i : ℤ} (hlow : 0 ≤ i) (hs : s.Lists (i + 1)) (status : ℤ) :
    ({ s.store i status with children := s.children.filter (· ≠ s.childPidMas i) } :
      State).Lists i where
  owned j hj hlt := by
    change Function.update s.childPidMas i status j ∈ s.children.filter (· ≠ s.childPidMas i)
    rw [Function.update_of_ne (by omega), List.mem_filter]
    refine ⟨hs.owned j hj (by omega), decide_eq_true fun heq => ?_⟩
    have := hs.distinct j i hj (by omega) hlow (by omega) heq
    omega
  distinct j k hj hji hk hki heq := by
    change Function.update s.childPidMas i status j =
      Function.update s.childPidMas i status k at heq
    rw [Function.update_of_ne (by omega), Function.update_of_ne (by omega)] at heq
    exact hs.distinct j k hj (by omega) hk (by omega) heq

theorem Lawful.stepMain (hs : s.Lawful) (h : s.stepMain = some t) : t.Lawful := by
  have hlow := hs.low
  have hhigh := hs.high
  have hplaced := hs.placed
  have hlists := hs.lists
  unfold State.stepMain at h
  simp only [Placed, listed] at hplaced hlists
  split at h
  case h_1 | h_2 | h_3 => cases h
  case h_4 chpid hpc =>
    rw [hpc] at hplaced hlists
    obtain rfl := Option.some.inj h
    have hstore := hs.safe.store hplaced.1 hhigh chpid
    have hpush := hlists.push hplaced.2.1 hplaced.2.2
    exact ⟨hlow, hhigh, trivial, ⟨hpush.owned, hpush.distinct⟩, ⟨hstore.owned, hstore.inTable⟩⟩
  case h_5 all i hpc =>
    rw [hpc] at hplaced
    obtain rfl := Option.some.inj h
    have hlisted : s.listed = i + 1 := by simp only [listed, hpc]
    exact hs.kill hplaced.1 hplaced.2.1 (by omega) hplaced hlisted.symm
  case h_6 hpc =>
    rw [hpc] at hplaced hlists
    obtain rfl := Option.some.inj h
    have hpos := hplaced rfl
    have hsame : s.childCount - 1 + 1 = s.childCount := by omega
    refine ⟨by change -1 ≤ s.childCount - 1; omega, by change s.childCount - 1 < MAX_CHILD; omega,
      trivial, ?_, ⟨hs.safe.owned, hs.safe.inTable⟩⟩
    change State.Lists _ (s.childCount - 1 + 1)
    rw [hsame]
    exact ⟨hlists.owned, hlists.distinct⟩
  case h_7 hpc =>
    rw [hpc] at hlists
    obtain rfl := Option.some.inj h
    exact ⟨Int.le_refl _, by change (-1 : ℤ) < 50; omega, trivial, ⟨hlists.owned, hlists.distinct⟩,
      ⟨hs.safe.owned, hs.safe.inTable⟩⟩
  case h_8 i n hpc =>
    rw [hpc] at hplaced
    have hlisted : s.listed = s.childCount + 1 := by simp only [listed, hpc]
    split_ifs at h with hle
    · obtain rfl := Option.some.inj h
      refine hs.kill hplaced.1 hle (by omega) ⟨?_, hplaced.2⟩ hlisted.symm
      have := hplaced.1
      omega
    · cases n with
      | none =>
        obtain rfl := Option.some.inj h
        exact hs.move trivial hlisted.symm
      | some n =>
        obtain rfl := Option.some.inj h
        exact hs.move (hplaced.2 n rfl) hlisted.symm
  case h_9 n hpc =>
    rw [hpc] at hplaced
    obtain rfl := Option.some.inj h
    have hlisted : s.listed = s.childCount + 1 := by simp only [listed, hpc]
    exact hs.move hplaced hlisted.symm
  case h_10 n hpc =>
    rw [hpc] at hplaced
    obtain rfl := Option.some.inj h
    have hlisted : s.listed = s.childCount + 1 := by simp only [listed, hpc]
    exact hs.kill hplaced.1 hplaced.2 (by omega) trivial hlisted.symm

theorem Lawful.fork (hs : s.Lawful) {chpid : Option ℤ} (hok : s.Orderly (.fork chpid))
    (h : s.next (.fork chpid) = some t) : t.Lawful := by
  have hplaced := hs.placed
  have hlists := hs.lists
  simp only [next] at h
  split at h
  case isTrue hpc =>
    simp only [Placed, listed, hpc] at hplaced hlists
    cases chpid with
    | none => exact absurd rfl hok
    | some chpid =>
      simp only at h
      split at h
      case isTrue hnew =>
        obtain rfl := Option.some.inj h
        refine ⟨hs.low, hs.high, ⟨hplaced, List.mem_cons_self, fun j hj hlt heq => ?_⟩,
          ⟨fun j hj hlt => ?_, hlists.distinct⟩, ⟨hs.safe.owned, hs.safe.inTable⟩⟩
        · have hmem := hlists.owned j hj hlt
          change s.childPidMas j = chpid at heq
          rw [heq] at hmem
          exact hnew.2 hmem
        · exact List.mem_cons_of_mem _ (hlists.owned j hj hlt)
      case isFalse => cases h
  case isFalse => cases h

/-- What follows a `wait` on entry `i` finds `i` listed entries. -/
theorem afterWait_spec (s : State) {all : Bool} {i : ℤ} (hlow : 0 ≤ i) (hle : i ≤ s.childCount)
    (hone : all = false → i = s.childCount) :
    ({ s with pc := afterWait all i } : State).Placed ∧
      ({ s with pc := afterWait all i } : State).listed = i := by
  cases all with
  | false =>
    have hi := hone rfl
    exact ⟨fun _ => by change 0 ≤ s.childCount; omega, hi.symm⟩
  | true =>
    by_cases hmore : -1 < i - 1
    · rw [afterWait, if_pos ⟨rfl, hmore⟩]
      refine ⟨⟨by omega, by change i - 1 ≤ s.childCount; omega, nofun⟩, ?_⟩
      change i - 1 + 1 = i
      omega
    · rw [afterWait, if_neg fun hall => hmore hall.2]
      refine ⟨nofun, ?_⟩
      change 0 = i
      omega

theorem Lawful.wait (hs : s.Lawful) {child : Option (ℤ × ℤ)} (hok : s.Orderly (.wait child))
    (h : s.next (.wait child) = some t) : t.Lawful := by
  have hplaced := hs.placed
  have hlists := hs.lists
  have hhigh := hs.high
  simp only [next] at h
  split at h
  case h_1 all i hpc =>
    simp only [Placed, listed, hpc] at hplaced hlists
    obtain ⟨hlow, hle, hone⟩ := hplaced
    cases child with
    | none =>
      simp only at h
      split at h
      case isTrue hnone =>
        have hmem := hlists.owned i hlow (by omega)
        simp [hnone] at hmem
      case isFalse => cases h
    | some child =>
      obtain ⟨chpid, status⟩ := child
      simp only at h
      split at h
      case isTrue hmem =>
        simp only [Orderly, hpc, Pc.Reaps] at hok
        subst hok
        obtain rfl := Option.some.inj h
        obtain ⟨hnext, hlisted⟩ := afterWait_spec { s.store i status with
          children := s.children.filter (· ≠ s.childPidMas i) } hlow hle hone
        have hreap := hlists.reap hlow status
        have hstore := hs.safe.store hlow (by omega) status
        refine ⟨hs.low, hhigh, hnext, ?_, ⟨hstore.owned, hstore.inTable⟩⟩
        rw [hlisted]
        exact ⟨hreap.owned, hreap.distinct⟩
      case isFalse => cases h
  case h_2 => cases h

theorem listed_of_upToDate (hs : s.pc.UpToDate s.childCount) : s.listed = s.childCount + 1 := by
  simp only [State.listed]
  split <;> simp_all [Pc.UpToDate]

theorem Lawful.alarm (hs : s.Lawful) (hok : s.Orderly .alarm) (h : s.next .alarm = some t) :
    t.Lawful := by
  have hlow := hs.low
  have hhigh := hs.high
  simp only [next] at h
  split at h
  case isTrue =>
    obtain rfl := Option.some.inj h
    have hlists := hs.lists
    rw [listed_of_upToDate hok] at hlists
    have hsafe := hs.safe.killFirst hlists (by omega) (s.childCount + 1).toNat (by omega)
    have hsame := hs.lists
    rw [allowAllChildSendStats, killFirst_frame]
    exact ⟨hlow, hhigh, hs.placed, ⟨hsame.owned, hsame.distinct⟩, ⟨hsafe.owned, hsafe.inTable⟩⟩
  case isFalse => cases h

theorem next_lawful (s : State) (a : Action) (t : State) (hs : s.Lawful) (hok : s.Orderly a)
    (h : s.next a = some t) : t.Lawful := by
  cases a with
  | command c =>
    simp only [next] at h
    split at h
    · exact hs.command ‹_› hok h
    · cases h
  | fork chpid => exact hs.fork hok h
  | wait child => exact hs.wait hok h
  | main => exact hs.stepMain h
  | alarm => exact hs.alarm hok h

/-- `+` at a full table writes entry 50. -/
theorem full_table_not_safe (hpc : s.pc = .menu) (hfull : s.childCount + 1 = MAX_CHILD)
    (h : exec next s [.command .plus, .fork none, .main] = some t) : ¬ t.Safe := by
  simp only [exec_cons, exec_nil, next, hpc, command, stepMain, if_true, Option.bind_some] at h
  obtain rfl := Option.some.inj h
  intro hsafe
  have hin := hsafe.inTable MAX_CHILD (by simp [store, hfull])
  exact absurd hin.2 (Int.lt_irrefl _)

/-- A number that `atoi` narrows to a negative one is used as an index. -/
theorem negative_number_not_safe {digits : ℕ} (hlow : -1 ≤ s.childCount) (hneg : atoi digits < 0)
    (h : s.next (.command (.s (some digits))) = some t ∨
      s.next (.command (.g (some digits))) = some t) : ¬ t.Safe := by
  have hsignal : s.signalOne (some digits) = some t := by
    rcases h with h | h
    · simp only [next] at h
      split at h
      · exact h
      · cases h
    · simp only [next] at h
      split at h
      · exact h
      · cases h
  simp only [signalOne] at hsignal
  split_ifs at hsignal with hd hle
  · obtain rfl := Option.some.inj hsignal
    intro hsafe
    have hin := hsafe.inTable (atoi digits) (by simp [kill])
    omega
  · omega

/-- A failed `fork` leaves -1 in the table, the target of the next `-`. -/
theorem failed_fork_not_safe (hpc : s.pc = .forking) (hlow : 0 ≤ s.childCount)
    (hchildren : -1 ∉ s.children)
    (h : exec next s [.fork none, .main, .command .minus, .main] = some t) : ¬ t.Safe := by
  have hne : s.childCount ≠ -1 := by omega
  simp only [exec_cons, exec_nil, next, hpc, command, stepMain, store, if_true, Option.bind_some,
    if_pos hne] at h
  obtain rfl := Option.some.inj h
  intro hsafe
  have howned := hsafe.owned (-1, s.children) (by simp [kill])
  exact hchildren howned

/-- The handler signals entry `childCount` whatever it holds at that moment: a stale status
between `++childCount` and the store, or between a `wait` and `--childCount`. -/
theorem stale_entry_not_safe (hlow : 0 ≤ s.childCount)
    (hstale : s.childPidMas s.childCount ∉ s.children) (h : s.next .alarm = some t) :
    ¬ t.Safe := by
  have hcount : (s.childCount + 1).toNat = s.childCount.toNat + 1 := by omega
  have hlast : ((s.childCount.toNat : ℕ) : ℤ) = s.childCount := by omega
  simp only [next] at h
  split at h
  case isTrue =>
    obtain rfl := Option.some.inj h
    intro hsafe
    have howned := hsafe.owned (s.childPidMas s.childCount, s.children) (by
      change _ ∈ (s.killFirst (s.childCount + 1).toNat).kills
      rw [hcount, killFirst_succ, killFirst_frame, hlast]
      simp [kill])
    exact hstale howned
  case isFalse => cases h

/-- A `wait` after `-` that returns an earlier child `j` leaves its process id in the table, where
`g` finds it. -/
theorem other_child_not_safe {j : ℕ} {status : ℤ} (hpc : s.pc = .reaping false s.childCount)
    (hj : (j : ℤ) < s.childCount) (hhigh : s.childCount < MAX_CHILD)
    (h : exec next s [.wait (some (s.childPidMas j, status)), .main, .command (.g (some j))] =
      some t) : ¬ t.Safe := by
  change s.childCount < 50 at hhigh
  have hatoi : atoi j = j := toInt_of_isInt (by rw [IsInt]; omega)
  have hdigits : j < 10 ^ 18 := by omega
  have hle : (j : ℤ) ≤ s.childCount - 1 := by omega
  obtain ⟨u, hu, hrest⟩ := exec_cons_eq_some.mp h
  simp only [next, hpc] at hu
  split at hu
  case isTrue =>
    obtain rfl := Option.some.inj hu
    simp only [exec_cons, exec_nil, next, stepMain, afterWait, Bool.false_eq_true, false_and,
      if_false, if_true, Option.bind_some, command, signalOne, hatoi, if_pos hdigits, store,
      if_pos hle] at hrest
    obtain rfl := Option.some.inj hrest
    intro hsafe
    have howned := hsafe.owned (s.childPidMas j, s.children.filter (· ≠ s.childPidMas j)) (by
      simp [kill, Function.update_of_ne (show (j : ℤ) ≠ s.childCount by omega)])
    simp at howned
  case isFalse => cases hu

/-- In every run of orderly steps the parent signals only its own unreaped children and stays
inside `childPidMas`, whatever the commands are and wherever the handler runs. -/
theorem run_safe (as : List Action) (s : State) (hrun : exec next start as = some s)
    (horderly : StepsMeet next Orderly start as) : s.Safe :=
  (exec_invariant_of_steps next_lawful start_lawful horderly hrun).safe

/-- Two children, a timer that fires at the menu, and their removal one by one and by `k`. -/
theorem run_safe_timer :
    ∃ s, exec next start [.command .plus, .fork (some 100), .main, .command .plus,
      .fork (some 101), .main, .command (.p 0), .main, .main, .main, .main, .main,
      .command (.s (some 1)), .alarm, .command .minus, .main, .wait (some (101, 15)), .main,
      .command .k, .main, .wait (some (100, 15)), .main] = some s ∧ s.Safe :=
  ⟨_, rfl, run_safe [.command .plus, .fork (some 100), .main, .command .plus,
    .fork (some 101), .main, .command (.p 0), .main, .main, .main, .main, .main,
    .command (.s (some 1)), .alarm, .command .minus, .main, .wait (some (101, 15)), .main,
    .command .k, .main, .wait (some (100, 15)), .main] _ rfl (by decide)⟩

/-- `-` after a failed `fork` signals every process that the parent may signal. -/
theorem killed_everything :
    ¬ ∀ (as : List Action) (s : State), exec next start as = some s → s.Safe := by
  intro hall
  have hsafe := hall [.command .plus, .fork none, .main, .command .minus, .main] _ rfl
  exact absurd (hsafe.owned (-1, []) (by decide)) (by decide)

end State

end OsispLabs.Lab3
