import OsispLabs.Lab7.LostUpdate
import OsispLabs.Lib.Refinement

/-!
# What `printAllFile` prints

The editor with `printAllFile` taken apart: one `read` and one line of output at a time, with the
other clients moving in between. The machine that prints the whole file in one step has the same
reachable states, and the printed lines are the records of one file.
-/
namespace OsispLabs.Lab7
open Lib

/-- A client in the loop of `printAllFile`: the offset of its open file, the printed contents of
`record`, and the file as it was when the lock was granted. -/
structure Scan where
  offset : ℕ
  printed : List Record
  granted : File
  deriving DecidableEq

namespace Scan

/-- At the start of the loop, after `lseek(file, 0, SEEK_SET)`. -/
def start (file : File) : Scan := ⟨0, [], file⟩

/-- One `read` and `printf`; `record` holds what was printed last, and `junk` at first. -/
def print (w : Scan) (junk : Record) (bytes : List UInt8) : Scan :=
  { w with
    offset := w.offset + bytes.length
    printed := w.printed ++ [(w.printed.getLast?.getD junk).fill 0 bytes] }

end Scan

/-- The editor with the loops of `printAllFile`. -/
structure Scanned (I : Type*) where
  state : State I
  scan : I → Scan

/-- The lines are those of all records of the file, the last one cut off where the file ends. -/
structure Lists (file : File) (printed : List Record) : Prop where
  count : printed.length = (file.length + (recordSize - 1)) / recordSize
  shown : ∀ k record, printed[k]? = some record →
    file.readAt (recordSize * k) <+: record.bytes

/-- The loop of `printAllFile` has come to `offset`. -/
structure ReadTo (file : File) (w : Scan) : Prop where
  offset : w.offset = min (recordSize * w.printed.length) file.length
  count : ∀ k < w.printed.length, recordSize * k < file.length
  shown : ∀ k record, w.printed[k]? = some record →
    file.readAt (recordSize * k) <+: record.bytes

theorem Record.prefix_fill (r : Record) (f : File) (offset : ℕ) :
    f.readAt offset <+: (r.fill 0 (f.readAt offset)).bytes := by
  have hle : (f.readAt offset).length ≤ recordSize := by
    rw [File.readAt_length]
    exact Nat.min_le_left _ _
  simp only [Record.fill, splice, Nat.sub_zero, List.take_of_length_le hle, List.take_zero,
    List.nil_append]
  exact List.prefix_append _ _

theorem readTo_start (file : File) : ReadTo file (.start file) where
  offset := by simp [Scan.start]
  count := by simp [Scan.start]
  shown := by simp [Scan.start]

theorem ReadTo.print {file : File} {w : Scan} (h : ReadTo file w) (junk : Record)
    (hmore : file.readAt w.offset ≠ []) :
    ReadTo file (w.print junk (file.readAt w.offset)) := by
  have hpos : 0 < (file.readAt w.offset).length := List.length_pos_iff.mpr hmore
  have hlen := file.readAt_length w.offset
  have hoffset := h.offset
  have hat : w.offset = recordSize * w.printed.length := by omega
  refine ⟨?_, ?_, ?_⟩
  · simp only [Scan.print, List.length_append, List.length_singleton, Nat.mul_succ]
    omega
  · intro k hk
    simp only [Scan.print, List.length_append, List.length_singleton] at hk
    rcases Nat.lt_succ_iff_lt_or_eq.mp hk with hlt | rfl
    · exact h.count k hlt
    · omega
  · intro k record hrecord
    simp only [Scan.print] at hrecord
    rcases Nat.lt_trichotomy k w.printed.length with hlt | rfl | hgt
    · rw [List.getElem?_append_left hlt] at hrecord
      exact h.shown k record hrecord
    · rw [List.getElem?_concat_length] at hrecord
      rw [← Option.some.inj hrecord, ← hat]
      exact Record.prefix_fill _ _ _
    · rw [List.getElem?_eq_none (by simp only [List.length_append, List.length_singleton]; omega)]
        at hrecord
      cases hrecord

/-- At the end of the file the loop has come to all of it. -/
theorem ReadTo.offset_of_end {file : File} {w : Scan} (h : ReadTo file w)
    (hend : file.readAt w.offset = []) : w.offset = file.length := by
  have hlen := file.readAt_length w.offset
  have hoffset := h.offset
  rw [hend, List.length_nil] at hlen
  simp only [recordSize] at hlen hoffset
  omega

theorem ReadTo.lists_of_end {file : File} {w : Scan} (h : ReadTo file w)
    (hend : file.readAt w.offset = []) : Lists file w.printed := by
  have hoffset := h.offset
  have hall := h.offset_of_end hend
  refine ⟨?_, h.shown⟩
  rcases Nat.eq_zero_or_pos w.printed.length with hz | hpos
  · rw [hz] at hoffset ⊢
    simp only [recordSize] at hoffset ⊢
    omega
  · have hlast := h.count (w.printed.length - 1) (by omega)
    simp only [recordSize] at hoffset hlast ⊢
    omega

theorem Lists.record {file : File} {printed : List Record} (h : Lists file printed) {k : ℕ}
    {c : Record} (hc : file.record? k = some c) : printed[k]? = some c := by
  have hin : recordSize * (k + 1) ≤ file.length := by
    rw [← File.record?_isSome_iff, hc]
    rfl
  have hcount := h.count
  have hlt : k < printed.length := by
    simp only [recordSize] at hin hcount
    omega
  have hget : printed[k]? = some printed[k] := List.getElem?_eq_getElem hlt
  have hshown := h.shown k _ hget
  rw [File.readAt_of_record? hc] at hshown
  have hbytes : c.bytes = printed[k].bytes :=
    hshown.eq_of_length (c.size.trans printed[k].size.symm)
  rw [hget]
  congr 1
  obtain ⟨bytes, size⟩ := c
  simp only at hbytes
  subst hbytes
  rfl

/-- In `printAllFile` with the lock. -/
def Pc.scans : Pc → Bool
  | .printLocked | .printed => true
  | .closed | .menu | .printing | .loading | .loadLocked | .loaded | .saving | .saveLocked |
    .prompting _ | .writing _ | .written => false

variable {I : Type*} [DecidableEq I]

namespace State

/-- A client that prints has all bytes locked, and one that saves has locked some byte against
it. -/
structure Separated (s : State I) : Prop where
  excluded : Excluded s.locks
  scanning : ∀ i, (s.session i).pc.scans = true → ∀ b, (s.locks i).get b = .read
  saving : ∀ i, (s.session i).pc.owns = true → ∃ b, (s.locks i).get b = .write

omit [DecidableEq I] in
theorem initial_separated (file : File) : (initial file : State I).Separated where
  excluded := excluded_empty
  scanning i h := by cases h
  saving i h := by cases h

variable [Fintype I] {s t : State I} {i j : I} {a : Action I}

omit [Fintype I] in
theorem Step.separated_self (h : Step s i a t) (hs : s.Separated) :
    ((t.session i).pc.scans = true → ∀ b, (t.locks i).get b = .read) ∧
      ((t.session i).pc.owns = true → ∃ b, (t.locks i).get b = .write) := by
  cases h with
  | lockAll hpc hg =>
    refine ⟨fun _ b => ?_, by simp [Pc.owns]⟩
    rw [get_setLock_self, if_pos ⟨Nat.zero_le b, .inl rfl⟩]
  | readAll junk hpc =>
    simp only [setSession_self, setSession_locks]
    exact ⟨fun _ => hs.scanning i (by rw [hpc]; rfl), by simp [Pc.owns]⟩
  | lockWrite hpc hg =>
    refine ⟨by simp [Pc.scans], fun _ => ⟨(s.session i).offset, ?_⟩⟩
    rw [get_setLock_self, if_pos ⟨Nat.le_refl _, .inr (by simp)⟩]
  | compareSame junk hpc hsame | compareChanged junk hpc hdiff =>
    simp only [setSession_self, setSession_locks]
    exact ⟨by simp [Pc.scans], fun _ => hs.saving i (by rw [hpc]; rfl)⟩
  | answerYes symbol tmpRecord hpc hyes =>
    simp only [goto_self, goto_locks]
    exact ⟨by simp [Pc.scans], fun _ => hs.saving i (by rw [hpc]; rfl)⟩
  | rewrite name address semester hpc | getTooBig n hpc hbig =>
    simp [hpc, Pc.scans, Pc.owns]
  | start | print | get | save | quit | unlockAll | lockRead | unlockRead | unlockWrite | fail
  | load | write | answerNo => simp [Pc.scans, Pc.owns]

omit [Fintype I] in
theorem setSession_ne (hj : j ≠ i) (c : Session) : (s.setSession i c).session j = s.session j :=
  Function.update_of_ne hj _ _

theorem next_of_printing (h : s.next (.fcntl i) = some t) (hpc : (s.session i).pc = .printing) :
    t = { s.goto i .printLocked with locks := setLock s.locks i ⟨0, 0⟩ .read } := by
  simp only [next, stepFcntl, hpc] at h
  exact (lock_eq_some h).2

omit [Fintype I] in
/-- A client comes to print by the lock on the whole file, and to the end of the loop by the
reading of the whole file. -/
theorem Step.not_scans (h : Step s i a t)
    (hlock : a = .fcntl i → (s.session i).pc ≠ .printing)
    (hread : ∀ junk, a = .transfer i junk → (s.session i).pc ≠ .printLocked) :
    (t.session i).pc.scans = false := by
  cases h with
  | lockAll hpc hg => exact absurd hpc (hlock rfl)
  | readAll junk hpc => exact absurd hpc (hread junk rfl)
  | rewrite name address semester hpc | getTooBig n hpc hbig => simp [hpc, Pc.scans]
  | start | print | get | save | quit | unlockAll | lockRead | unlockRead | lockWrite | unlockWrite
  | fail | load | compareSame | compareChanged | write | answerNo | answerYes => simp [Pc.scans]

omit [Fintype I] in
theorem Step.separated (h : Step s i a t) (hs : s.Separated) : t.Separated where
  excluded := h.excluded hs.excluded
  scanning j hpc := by
    by_cases hj : j = i
    · subst hj
      exact (h.separated_self hs).1 hpc
    · rw [h.session_ne hj] at hpc
      rw [h.locks_ne hj]
      exact hs.scanning j hpc
  saving j hpc := by
    by_cases hj : j = i
    · subst hj
      exact (h.separated_self hs).2 hpc
    · rw [h.session_ne hj] at hpc
      rw [h.locks_ne hj]
      exact hs.saving j hpc

omit [Fintype I] in
/-- Nothing is written while a client prints. -/
theorem Step.file_eq_of_scans (h : Step s i a t) (hs : s.Separated)
    (hj : (s.session j).pc.scans = true) : t.file = s.file := by
  rcases h.shared with ⟨hf, _⟩ | ⟨hf, _⟩ | ⟨prompted, hpc, _, _⟩
  · exact hf
  · exact hf
  · exfalso
    have hne : i ≠ j := by
      rintro rfl
      rw [hpc] at hj
      cases hj
    obtain ⟨b, hb⟩ := hs.saving i (by rw [hpc]; rfl)
    have hc := hs.excluded i j hne b
    rw [hb, hs.scanning j hj b] at hc
    exact hc

end State

namespace Scanned

def initial (file : File) : Scanned I := ⟨.initial file, fun _ => .start file⟩

/-- The lock is granted, and the loop of client `i` starts. -/
def begin (r : Scanned I) (i : I) : Scanned I :=
  { r with scan := Function.update r.scan i (.start r.state.file) }

/-- One turn of the loop of client `i`, which the end of the file leaves. -/
def readRecord (r : Scanned I) (i : I) (junk : Record) : Scanned I :=
  let w := r.scan i
  let bytes := r.state.file.readAt w.offset
  if bytes = [] then
    { r with state := r.state.setSession i { r.state.session i with
        pc := .printed, offset := w.offset } }
  else { r with scan := Function.update r.scan i (w.print junk bytes) }

variable [Fintype I]

/-- A step that has nothing to do with the loop. -/
def lift (r : Scanned I) (a : Action I) : Option (Scanned I) :=
  (r.state.next a).map fun s => { r with state := s }

def next (r : Scanned I) : Action I → Option (Scanned I)
  | .transfer i junk =>
    if (r.state.session i).pc = .printLocked then some (r.readRecord i junk)
    else r.lift (.transfer i junk)
  | .fcntl i =>
    if (r.state.session i).pc = .printing then (r.begin i).lift (.fcntl i) else r.lift (.fcntl i)
  | a => r.lift a

variable {r r' : Scanned I} {a : Action I} {i : I}

theorem lift_eq_some (h : r.lift a = some r') :
    r.state.next a = some r'.state ∧ r'.scan = r.scan := by
  obtain ⟨s, hs, rfl⟩ := Option.map_eq_some_iff.mp h
  exact ⟨hs, rfl⟩

/-- A step is a turn of a loop, the grant of the lock before one, or has nothing to do with
loops. -/
theorem next_cases (h : r.next a = some r') :
    (∃ i junk, a = .transfer i junk ∧ (r.state.session i).pc = .printLocked ∧
      r' = r.readRecord i junk) ∨
    (∃ i, a = .fcntl i ∧ (r.state.session i).pc = .printing ∧
      r.state.next a = some r'.state ∧ r'.scan = (r.begin i).scan) ∨
    ((∀ i, a = .fcntl i → (r.state.session i).pc ≠ .printing) ∧
      (∀ i junk, a = .transfer i junk → (r.state.session i).pc ≠ .printLocked) ∧
      r.state.next a = some r'.state ∧ r'.scan = r.scan) := by
  cases a with
  | transfer i junk =>
    simp only [next] at h
    split at h
    · exact .inl ⟨i, junk, rfl, ‹_›, (Option.some.inj h).symm⟩
    · obtain ⟨hnext, hscan⟩ := lift_eq_some h
      refine .inr (.inr ⟨by simp, fun j junk' hj => ?_, hnext, hscan⟩)
      cases hj
      assumption
  | fcntl i =>
    simp only [next] at h
    split at h
    · obtain ⟨hnext, hscan⟩ := lift_eq_some h
      exact .inr (.inl ⟨i, rfl, ‹_›, hnext, hscan⟩)
    · obtain ⟨hnext, hscan⟩ := lift_eq_some h
      refine .inr (.inr ⟨fun j hj => ?_, by simp, hnext, hscan⟩)
      cases hj
      assumption
  | start | print | get | rewrite | save | quit | fail | answer =>
    obtain ⟨hnext, hscan⟩ := lift_eq_some h
    exact .inr (.inr ⟨by simp, by simp, hnext, hscan⟩)

/-- What a printing client has printed is of the file as it is and as it was when the lock was
granted. -/
structure Snapshot (r : Scanned I) : Prop where
  separated : r.state.Separated
  granted : ∀ i, (r.state.session i).pc.scans = true → (r.scan i).granted = r.state.file
  readTo : ∀ i, (r.state.session i).pc.scans = true → ReadTo r.state.file (r.scan i)
  lists : ∀ i, (r.state.session i).pc = .printed → Lists r.state.file (r.scan i).printed

omit [Fintype I] [DecidableEq I] in
theorem initial_snapshot (file : File) : (initial file : Scanned I).Snapshot where
  separated := State.initial_separated file
  granted i h := by cases h
  readTo i h := by cases h
  lists i h := by cases h

omit [Fintype I] in
theorem readRecord_of_end (hend : r.state.file.readAt (r.scan i).offset = []) (junk : Record) :
    r.readRecord i junk = ⟨r.state.setSession i { r.state.session i with
      pc := .printed, offset := (r.scan i).offset }, r.scan⟩ := if_pos hend

omit [Fintype I] in
theorem readRecord_of_more (hmore : r.state.file.readAt (r.scan i).offset ≠ []) (junk : Record) :
    r.readRecord i junk = ⟨r.state, Function.update r.scan i
      ((r.scan i).print junk (r.state.file.readAt (r.scan i).offset))⟩ := if_neg hmore

/-- The end of the loop is where the editor comes to that reads the file at once. -/
theorem Snapshot.next_of_end (hr : r.Snapshot) (hpc : (r.state.session i).pc = .printLocked)
    (hend : r.state.file.readAt (r.scan i).offset = []) (junk : Record) :
    r.state.next (.transfer i junk) = some (r.readRecord i junk).state := by
  have hread := hr.readTo i (by rw [hpc]; rfl)
  simp only [readRecord_of_end hend, State.next, State.stepTransfer, hpc,
    hread.offset_of_end hend]

theorem Snapshot.turn (hr : r.Snapshot) (hpc : (r.state.session i).pc = .printLocked)
    (junk : Record) : (r.readRecord i junk).Snapshot := by
  have hscans : (r.state.session i).pc.scans = true := by rw [hpc]; rfl
  by_cases hend : r.state.file.readAt (r.scan i).offset = []
  · obtain ⟨_, hstep⟩ := State.next_step (hr.next_of_end hpc hend junk)
    have hseparated := hstep.separated hr.separated
    rw [readRecord_of_end hend] at hseparated ⊢
    refine ⟨hseparated, fun j hj => ?_, fun j hj => ?_, fun j hj => ?_⟩
    · by_cases hji : j = i
      · rw [hji]
        exact hr.granted i hscans
      · rw [State.setSession_ne hji] at hj
        exact hr.granted j hj
    · by_cases hji : j = i
      · rw [hji]
        exact hr.readTo i hscans
      · rw [State.setSession_ne hji] at hj
        exact hr.readTo j hj
    · by_cases hji : j = i
      · rw [hji]
        exact (hr.readTo i hscans).lists_of_end hend
      · rw [State.setSession_ne hji] at hj
        exact hr.lists j hj
  · rw [readRecord_of_more hend]
    refine ⟨hr.separated, fun j hj => ?_, fun j hj => ?_, fun j hj => ?_⟩
    · by_cases hji : j = i
      · subst hji
        simp only [Function.update_self, Scan.print]
        exact hr.granted j hj
      · simpa only [Function.update_of_ne hji] using hr.granted j hj
    · by_cases hji : j = i
      · subst hji
        simpa only [Function.update_self] using (hr.readTo j hj).print junk hend
      · simpa only [Function.update_of_ne hji] using hr.readTo j hj
    · have hji : j ≠ i := by
        rintro rfl
        rw [hpc] at hj
        cases hj
      simpa only [Function.update_of_ne hji] using hr.lists j hj

theorem Snapshot.step (hr : r.Snapshot) (h : r.next a = some r') : r'.Snapshot := by
  obtain ⟨i, junk, rfl, hpc, rfl⟩ | ⟨i, rfl, hpc, hnext, hscan⟩ | ⟨hlock, hread, hnext, hscan⟩ :=
    next_cases h
  · exact hr.turn hpc junk
  · obtain ⟨_, hstep⟩ := State.next_step hnext
    have hseparated := hstep.separated hr.separated
    have hlocked := State.next_of_printing hnext hpc
    have hfile : r'.state.file = r.state.file := by rw [hlocked]; rfl
    have hother : ∀ k, k ≠ i → r'.state.session k = r.state.session k := by
      intro k hk
      rw [hlocked]
      exact State.setSession_ne hk _
    refine ⟨hseparated, fun k hk => ?_, fun k hk => ?_, fun k hk => ?_⟩
    · rw [hscan, hfile, begin]
      by_cases hki : k = i
      · subst hki
        simp only [Function.update_self, Scan.start]
      · rw [hother k hki] at hk
        simpa only [Function.update_of_ne hki] using hr.granted k hk
    · rw [hscan, hfile, begin]
      by_cases hki : k = i
      · subst hki
        simpa only [Function.update_self] using readTo_start r.state.file
      · rw [hother k hki] at hk
        simpa only [Function.update_of_ne hki] using hr.readTo k hk
    · have hki : k ≠ i := by
        rintro rfl
        rw [hlocked] at hk
        simp at hk
      rw [hother k hki] at hk
      rw [hscan, hfile, begin]
      simpa only [Function.update_of_ne hki] using hr.lists k hk
  · obtain ⟨j, hstep⟩ := State.next_step hnext
    have hne : ∀ k, (r'.state.session k).pc.scans = true → k ≠ j := by
      rintro k hk rfl
      rw [hstep.not_scans (hlock k) (hread k)] at hk
      cases hk
    have hwas : ∀ k, (r'.state.session k).pc.scans = true →
        (r.state.session k).pc.scans = true ∧ r'.state.file = r.state.file := by
      intro k hk
      have hsession := hstep.session_ne (hne k hk)
      rw [hsession] at hk
      exact ⟨hk, hstep.file_eq_of_scans hr.separated hk⟩
    refine ⟨hstep.separated hr.separated, fun k hk => ?_, fun k hk => ?_, fun k hk => ?_⟩
    · obtain ⟨hk', hfile⟩ := hwas k hk
      rw [hscan, hfile]
      exact hr.granted k hk'
    · obtain ⟨hk', hfile⟩ := hwas k hk
      rw [hscan, hfile]
      exact hr.readTo k hk'
    · have hscans : (r'.state.session k).pc.scans = true := by rw [hk]; rfl
      obtain ⟨hk', hfile⟩ := hwas k hscans
      rw [hstep.session_ne (hne k hscans)] at hk
      rw [hscan, hfile]
      exact hr.lists k hk

/-- A turn of the loop is invisible to the machine that reads the file at once, except the last
one. -/
theorem refines_state :
    Refines next State.next fun (r : Scanned I) s => r.Snapshot ∧ r.state = s := by
  rintro r s a r' ⟨hr, rfl⟩ h
  obtain ⟨i, junk, rfl, hpc, rfl⟩ | ⟨i, rfl, hpc, hnext, hscan⟩ | ⟨hlock, hread, hnext, hscan⟩ :=
    next_cases h
  · by_cases hend : r.state.file.readAt (r.scan i).offset = []
    · refine ⟨[.transfer i junk], _, ?_, hr.step h, rfl⟩
      rw [exec_single]
      exact hr.next_of_end hpc hend junk
    · refine ⟨[], _, rfl, hr.step h, ?_⟩
      rw [readRecord_of_more hend]
  · exact ⟨[.fcntl i], _, (exec_single _).trans hnext, hr.step h, rfl⟩
  · exact ⟨[a], _, (exec_single _).trans hnext, hr.step h, rfl⟩

/-- The loop comes to its end. -/
theorem Snapshot.exec_scan (hr : r.Snapshot) (hpc : (r.state.session i).pc = .printLocked)
    (junk : Record) : ∃ as r', exec next r as = some r' ∧
      r.state.next (.transfer i junk) = some r'.state := by
  induction hn : r.state.file.length - (r.scan i).offset using Nat.strong_induction_on
    generalizing r with
  | _ n ih =>
    have hturn : r.next (.transfer i junk) = some (r.readRecord i junk) := by
      simp only [next, if_pos hpc]
    by_cases hend : r.state.file.readAt (r.scan i).offset = []
    · exact ⟨[.transfer i junk], _, (exec_single _).trans hturn, hr.next_of_end hpc hend junk⟩
    · have hpos : 0 < (r.state.file.readAt (r.scan i).offset).length := List.length_pos_iff.mpr hend
      have hlen := r.state.file.readAt_length (r.scan i).offset
      have hkeep := hr.step hturn
      rw [readRecord_of_more hend] at hturn hkeep
      obtain ⟨as, r', hrun, hnext⟩ := ih _ (by
        simp only [Function.update_self, Scan.print]
        omega) hkeep hpc rfl
      exact ⟨.transfer i junk :: as, r', exec_cons_eq_some.mpr ⟨_, hturn, hrun⟩, hnext⟩

theorem next_of_state {s : State I} (h : r.state.next a = some s)
    (hread : ∀ i junk, a = .transfer i junk → (r.state.session i).pc ≠ .printLocked) :
    ∃ r', r.next a = some r' ∧ r'.state = s := by
  have hlift : ∀ w : Scanned I, w.state = r.state → ∃ r', w.lift a = some r' ∧ r'.state = s := by
    intro w hw
    exact ⟨{ w with state := s }, by rw [lift, hw, h]; rfl, rfl⟩
  cases a with
  | transfer i junk =>
    rw [next, if_neg (hread i junk rfl)]
    exact hlift r rfl
  | fcntl i =>
    simp only [next]
    split
    · exact hlift (r.begin i) rfl
    · exact hlift r rfl
  | start | print | get | rewrite | save | quit | fail | answer => exact hlift r rfl

/-- Reading the file at once is what the whole loop does. -/
theorem state_refines :
    Refines State.next next fun s (r : Scanned I) => r.Snapshot ∧ r.state = s := by
  rintro s r a t ⟨hr, rfl⟩ h
  by_cases hread : ∃ i junk, a = .transfer i junk ∧ (r.state.session i).pc = .printLocked
  · obtain ⟨i, junk, rfl, hpc⟩ := hread
    obtain ⟨as, r', hrun, hnext⟩ := hr.exec_scan hpc junk
    obtain rfl : r'.state = t := Option.some.inj (hnext.symm.trans h)
    exact ⟨as, r', hrun, exec_invariant (fun _ _ _ hs => hs.step) hr hrun, rfl⟩
  · obtain ⟨r', hnext, rfl⟩ := next_of_state h fun i junk ha hpc => hread ⟨i, junk, ha, hpc⟩
    exact ⟨[a], r', (exec_single _).trans hnext, hr.step hnext, rfl⟩

/-- In every interleaving the clients come to the same files, locks and variables, whether
`printAllFile` reads the file record by record or at once. -/
theorem reachable_iff (file₀ : File) (s : State I) :
    (∃ as r, exec next (initial file₀) as = some r ∧ r.state = s) ↔
      ∃ as, exec State.next (.initial file₀) as = some s := by
  constructor
  · rintro ⟨as, r, hrun, rfl⟩
    obtain ⟨bs, s, hbs, -, rfl⟩ := refines_state.run ⟨initial_snapshot file₀, rfl⟩ hrun
    exact ⟨bs, hbs⟩
  · rintro ⟨as, hrun⟩
    obtain ⟨bs, r, hbs, -, rfl⟩ :=
      state_refines.run (u := initial file₀) ⟨initial_snapshot file₀, rfl⟩ hrun
    exact ⟨bs, r, hbs, rfl⟩

/-- In every interleaving, when `printAllFile` has left its loop, it has printed the records of the
file as it is, which is the file as it was when the lock was granted. -/
theorem run_printed (file₀ : File) (as : List (Action I)) (r : Scanned I)
    (hrun : exec next (initial file₀) as = some r) (i : I)
    (hpc : (r.state.session i).pc = .printed) :
    r.state.file = (r.scan i).granted ∧ Lists r.state.file (r.scan i).printed := by
  have hr : r.Snapshot := exec_invariant (fun _ _ _ hs => hs.step) (initial_snapshot file₀) hrun
  exact ⟨(hr.granted i (by rw [hpc]; rfl)).symm, hr.lists i hpc⟩

/-- A client saves its edit of the first of two records, then prints them while the other one
waits to save; the file ends inside a third record. -/
def printsWhileSaving : List (Action Bool) :=
  [.start false .zero .zero, .start true .zero .zero, .get false 0, .fcntl false,
    .transfer false .zero, .fcntl false, .rewrite false (some [65, 10]) none (some 3), .save false,
    .fcntl false, .transfer false .zero, .transfer false .zero, .fcntl false, .get true 0,
    .fcntl true, .transfer true .zero, .fcntl true, .save true, .print false, .fcntl false,
    .transfer false .zero, .transfer false .zero, .transfer false .zero, .transfer false .zero]

/-- Two records and two bytes. -/
def twoRecords : File := List.replicate 324 0

theorem run_printed_printsWhileSaving :
    (exec next (initial twoRecords) printsWhileSaving).map
        (fun r => ((r.state.session false).pc, (r.scan false).printed.length)) =
      some (.printed, 3) ∧
    ∀ r, exec next (initial twoRecords) printsWhileSaving = some r →
      (r.state.session false).pc = .printed →
      r.state.file = (r.scan false).granted ∧ Lists r.state.file (r.scan false).printed :=
  ⟨by decide +kernel, fun r hrun => run_printed twoRecords printsWhileSaving r hrun false⟩

end Scanned

end OsispLabs.Lab7
