import OsispLabs.Lab7.EditOrigin
import OsispLabs.Lab7.LostUpdate

/-!
# Conflicts with oneself

One client alone on its file. `saveRecord` leaves `record` as it was loaded, so a later `s` takes
the client's own earlier save for a change by somebody else.
-/
namespace OsispLabs.Lab7
open Lib

/-- The content of the current record: the last one saved or loaded. -/
def onDisk : List Entry → Option Record
  | .loaded _ content :: _ | .declined _ content :: _ => content
  | .saved _ content :: _ => some content
  | .edited .. :: entries => onDisk entries
  | .opened :: _ | [] => none

/-- An `r` has been entered since the last `g`. -/
def EditedSinceLoad : List Entry → Prop
  | .edited .. :: _ => True
  | .saved .. :: entries | .declined .. :: entries => EditedSinceLoad entries
  | .loaded .. :: _ | .opened :: _ | [] => False

instance EditedSinceLoad.decidable : (entries : List Entry) → Decidable (EditedSinceLoad entries)
  | .edited .. :: _ => isTrue trivial
  | .saved .. :: entries | .declined .. :: entries => EditedSinceLoad.decidable entries
  | .loaded .. :: _ | .opened :: _ | [] => isFalse id

/-- What was saved last since the `g` does not differ from what was loaded. -/
def SavedAsLoaded (entries : List Entry) : Prop :=
  ∀ origin ∈ source entries, ∀ content ∈ onDisk entries, content.Same origin.2

/-- In `saveRecord`. -/
def Pc.inSave : Pc → Bool
  | .saving | .saveLocked | .prompting _ | .writing _ | .written => true
  | .closed | .menu | .printing | .printLocked | .printed | .loading | .loadLocked | .loaded =>
    false

namespace Journaled

/-- The client alone. -/
abbrev Solo := Journaled Unit

def client (r : Solo) : Session := r.state.session ()

def entries (r : Solo) : List Entry := r.journal ()

/-- The sequences of commands: the first is a `g`, every `g` names one of the `size` records and
gets its lock, and an `s` has an `r` before it since the last `g`. -/
def Entered (r : Solo) : Action Unit → Prop
  | .get _ n => 0 ≤ n ∧ n < r.client.size
  | .rewrite .. => (source r.entries).isSome = true
  | .save _ => (source r.entries).isSome = true ∧ EditedSinceLoad r.entries
  | .fail _ => r.client.pc ≠ .loading
  | _ => True

instance (r : Solo) : (a : Action Unit) → Decidable (Entered r a)
  | .get _ _ | .save _ => inferInstanceAs (Decidable (_ ∧ _))
  | .rewrite .. => inferInstanceAs (Decidable (_ = _))
  | .fail _ => inferInstanceAs (Decidable (_ ≠ _))
  | .start .. | .print _ | .quit _ | .fcntl _ | .transfer .. | .answer .. => isTrue trivial

/-- `saveRecord` does not report a change. -/
def Unreported (r : Solo) : Prop := ∀ tmpRecord, r.client.pc ≠ .prompting tmpRecord

/-- After a save `record` equals the record on disk. -/
def Synced (r : Solo) : Prop :=
  r.client.pc = .written → r.state.file.recordAt r.client.currentRecord = some r.client.record

/-- The comparison of `saveRecord` comes after no save of anything but what was loaded. -/
def ComparesLoaded (r : Solo) : Action Unit → Prop
  | .transfer _ _ => r.client.pc = .saveLocked → SavedAsLoaded r.entries
  | _ => True

/-- What `saveRecord` writes is the record as it was loaded. -/
def WritesLoaded (r : Solo) : Action Unit → Prop
  | .transfer _ _ => r.client.pc.writes = true → r.client.newRecord = r.client.record
  | _ => True

/-- The loaded record is the current one, and its content on disk is known. -/
def Known (file : File) (entries : List Entry) (c : Session) : Prop :=
  ∀ k old, source entries = some (k, old) →
    k = c.currentRecord ∧ ∃ content, onDisk entries = some content ∧ file.recordAt k = some content

/-- The invariant of a client alone. -/
structure Tracks (r : Solo) : Prop where
  traced : Traced (r.fetched ()) r.entries r.client
  counted : recordSize * r.client.size ≤ r.state.file.length
  loading : r.client.pc ∈ [.loading, .loadLocked] →
    0 ≤ r.client.currentRecord ∧ r.client.currentRecord < r.client.size
  known : r.client.pc ∉ [.loading, .loadLocked] → Known r.state.file r.entries r.client
  saving : r.client.pc.inSave = true → (source r.entries).isSome = true
  unreported : Unreported r

variable {r r' : Solo} {t : State Unit} {a : Action Unit}

/-- A step that changes neither the file nor the loaded record. -/
theorem Tracks.move (h : Tracks r) (htraced : Traced (r'.fetched ()) r'.entries r'.client)
    (hfile : r'.state.file = r.state.file) (hsource : source r'.entries = source r.entries)
    (hdisk : onDisk r'.entries = onDisk r.entries)
    (hcurrent : r'.client.currentRecord = r.client.currentRecord)
    (hsize : r'.client.size = r.client.size)
    (hloading : r'.client.pc ∈ [.loading, .loadLocked] ↔ r.client.pc ∈ [.loading, .loadLocked])
    (hsaving : r'.client.pc.inSave = true → (source r.entries).isSome = true)
    (hunreported : Unreported r') : Tracks r' where
  traced := htraced
  counted := by
    rw [hsize, hfile]
    exact h.counted
  loading hpc := by
    rw [hcurrent, hsize]
    exact h.loading (hloading.mp hpc)
  known hpc := by
    rw [Known, hsource, hdisk, hfile, hcurrent]
    exact h.known (fun hl => hpc (hloading.mpr hl))
  saving hpc := by
    rw [hsource]
    exact hsaving hpc
  unreported := hunreported

theorem recordSize_mul_size_le (length : ℕ) :
    (recordSize : ℤ) * Int.bmod (length / recordSize) (2 ^ 32) ≤ length := by
  have hsize := Int.mul_le_mul_of_nonneg_left (size_le length) (Int.natCast_nonneg recordSize)
  have hdiv : recordSize * (length / recordSize) ≤ length := Nat.mul_div_le length recordSize
  exact hsize.trans (by exact_mod_cast hdiv)

theorem initial_tracks (file : File) : Tracks (initial file : Solo) where
  traced := by constructor <;> simp [initial, State.initial, client, entries, source, edit]
  counted := by simp [initial, State.initial, client]
  loading := by simp [initial, State.initial, client]
  known := by simp [Known, initial, entries, source]
  saving := by simp [initial, State.initial, client, Pc.inSave]
  unreported := by simp [Unreported, initial, State.initial, client]

/-- The record that `saveRecord` reads is the one the journal knows. -/
theorem Tracks.read_eq (h : Tracks r) (hpc : r.client.pc = .saveLocked) (junk : Record) :
    ∃ origin content, source r.entries = some origin ∧ onDisk r.entries = some content ∧
      r.client.record = origin.2 ∧
      junk.fill 0 (r.state.file.readAt r.client.offset) = content := by
  obtain ⟨⟨k, old⟩, hsource⟩ := Option.isSome_iff_exists.mp (h.saving (by rw [hpc]; rfl))
  obtain ⟨hk, content, hdisk, hfile⟩ := h.known (by simp [hpc]) k old hsource
  refine ⟨(k, old), content, hsource, hdisk, h.traced.source k old hsource, ?_⟩
  rw [hk] at hfile
  exact fill_readAt junk hfile (h.traced.aimed (by simp [hpc]))

theorem Tracks.same_iff (h : Tracks r) (hpc : r.client.pc = .saveLocked) (junk : Record) :
    (junk.fill 0 (r.state.file.readAt r.client.offset)).Same r.client.record ↔
      SavedAsLoaded r.entries := by
  obtain ⟨origin, content, hsource, hdisk, hrecord, hread⟩ := h.read_eq hpc junk
  rw [hread, hrecord]
  simp [SavedAsLoaded, hsource, hdisk]

theorem exists_recordAt {file : File} {n : ℤ} (hn : 0 ≤ n)
    (hle : recordSize * (n + 1) ≤ file.length) : ∃ content, file.recordAt n = some content := by
  obtain ⟨k, rfl⟩ := Int.eq_ofNat_of_zero_le hn
  rw [File.recordAt_natCast]
  apply Option.isSome_iff_exists.mp
  rw [File.record?_isSome_iff]
  exact_mod_cast hle

theorem Tracks.recordAt_current (h : Tracks r) (hpc : r.client.pc ∈ [.loading, .loadLocked]) :
    ∃ content, r.state.file.recordAt r.client.currentRecord = some content := by
  obtain ⟨hnonneg, hlt⟩ := h.loading hpc
  refine exists_recordAt hnonneg (le_trans ?_ h.counted)
  exact Int.mul_le_mul_of_nonneg_left hlt (by decide)

/-- The content of a record after it was written. -/
theorem recordAt_writeAt_self {file : File} {k : ℤ} {content : Record} (offset : ℕ) (c : Record)
    (h : file.recordAt k = some content) :
    (file.writeAt (seek offset k) c).recordAt k = some c := by
  have hk : 0 ≤ k := by
    by_contra hneg
    rw [File.recordAt, if_neg hneg] at h
    exact absurd h (by simp)
  obtain ⟨m, rfl⟩ := Int.eq_ofNat_of_zero_le hk
  rw [File.recordAt_natCast] at h
  have hin : recordSize * (m + 1) ≤ file.length := by
    rw [← File.record?_isSome_iff, h]
    rfl
  rw [File.recordAt_natCast, seek_natCast]
  exact File.record?_writeAt_self c (le_trans (Nat.mul_le_mul_left _ (Nat.le_succ m)) hin)

theorem tracks_step (h : State.Step r.state () a t) (hs : Tracks r) (hperm : Entered r a)
    (hok : ComparesLoaded r a) : Tracks { r.note a with state := t } := by
  have htraced := traced_self h hs.traced
  cases h with
  | start record newRecord hpc =>
    have hentries : (r.note (.start () record newRecord)).entries = .opened :: r.entries :=
      enter_journal_self _
    refine ⟨htraced, ?_, ?_, ?_, ?_, ?_⟩
    · simpa [client] using recordSize_mul_size_le r.state.file.length
    · simp [client]
    · intro _ k old hsource
      have hnone := (congrArg source hentries).symm.trans hsource
      simp [source] at hnone
    · simp [client, Pc.inSave]
    · simp [Unreported, client]
  | print hpc | quit hpc =>
    refine hs.move htraced rfl rfl rfl ?_ ?_ ?_ ?_ ?_
    all_goals simp [client, hpc, Pc.inSave, Unreported]
  | getTooBig n hpc hbig => exact absurd hperm.2 (Int.not_lt.mpr hbig)
  | get n hpc hlt =>
    refine ⟨htraced, ?_, ?_, ?_, ?_, ?_⟩
    · simpa [client] using hs.counted
    · simpa [client, Entered] using hperm
    · simp [client]
    · simp [client, Pc.inSave]
    · simp [Unreported, client]
  | rewrite name address semester hpc =>
    have hentries : (r.note (.rewrite () name address semester)).entries =
        .edited name address semester :: r.entries := enter_journal_self _
    refine hs.move htraced rfl ?_ ?_ ?_ ?_ ?_ ?_ ?_
    · exact (congrArg source hentries).trans rfl
    · exact (congrArg onDisk hentries).trans rfl
    all_goals simp [client, hpc, Pc.inSave, Unreported]
  | save hpc =>
    refine hs.move htraced rfl rfl rfl ?_ ?_ ?_ ?_ ?_
    · simp [client]
    · simp [client]
    · simp [client, hpc]
    · exact fun _ => hperm.1
    · simp [Unreported, client]
  | lockAll hpc hg | lockRead hpc hg =>
    refine hs.move htraced rfl rfl rfl ?_ ?_ ?_ ?_ ?_
    all_goals simp [client, hpc, Pc.inSave, Unreported]
  | lockWrite hpc hg =>
    refine hs.move htraced rfl rfl rfl ?_ ?_ ?_ ?_ ?_
    · simp [client]
    · simp [client]
    · simp [client, hpc]
    · exact fun _ => hs.saving (by simp [client, hpc, Pc.inSave])
    · simp [Unreported, client]
  | unlockAll hpc | unlockRead hpc hle | unlockWrite hpc =>
    refine hs.move htraced rfl rfl rfl ?_ ?_ ?_ ?_ ?_
    all_goals simp [client, hpc, Pc.inSave, Unreported]
  | fail hpc =>
    have hnot : r.client.pc ∉ [.loading, .loadLocked] := by
      have hlocked : r.client.pc ≠ .loadLocked := by
        intro heq
        rw [client] at heq
        rw [heq] at hpc
        cases hpc
      simp [hlocked, show r.client.pc ≠ .loading from hperm]
    refine hs.move htraced rfl rfl rfl ?_ ?_ ?_ ?_ ?_
    · simp [client]
    · simp [client]
    · simpa [client] using hnot
    · simp [client, Pc.inSave]
    · simp [Unreported, client]
  | readAll junk hpc =>
    refine hs.move htraced rfl ?_ ?_ ?_ ?_ ?_ ?_ ?_
    all_goals simp [client, entries, note, hpc, Pc.inSave, Unreported]
  | load junk hpc =>
    obtain ⟨content, hcontent⟩ := hs.recordAt_current (by simp [client, hpc])
    have hentries : (r.note (.transfer () junk)).entries =
        .loaded r.client.currentRecord (some content) :: r.entries := by
      simp only [note, hpc, entries, enter_journal_self, fetch_journal, ← hcontent, client]
    refine ⟨htraced, ?_, ?_, ?_, ?_, ?_⟩
    · simpa [client] using hs.counted
    · simp [client]
    · intro _ k old hsource
      have hpair := (congrArg source hentries).symm.trans hsource
      simp only [source, Option.map_some, Option.some_inj, Prod.mk.injEq] at hpair
      obtain ⟨rfl, rfl⟩ := hpair
      refine ⟨?_, content, (congrArg onDisk hentries).trans rfl, hcontent⟩
      simp [client]
    · simp [client, Pc.inSave]
    · simp [Unreported, client]
  | compareSame junk hpc hsame =>
    refine hs.move htraced rfl ?_ ?_ ?_ ?_ ?_ ?_ ?_
    · simp [entries, note, hpc]
    · simp [entries, note, hpc]
    · simp [client]
    · simp [client]
    · simp [client, hpc]
    · exact fun _ => hs.saving (by simp [client, hpc, Pc.inSave])
    · simp [Unreported, client]
  | compareChanged junk hpc hdiff =>
    exact absurd ((hs.same_iff hpc junk).mpr (hok hpc)) hdiff
  | write junk prompted hpc =>
    have hentries : (r.note (.transfer () junk)).entries =
        .saved r.client.currentRecord r.client.newRecord :: r.entries := by
      simp only [note, hpc, entries, enter_journal_self, client]
    refine ⟨htraced, ?_, ?_, ?_, ?_, ?_⟩
    · have hle := File.length_le_writeAt r.state.file
        (seek r.client.offset r.client.currentRecord) r.client.newRecord
      have hcounted := hs.counted
      simp only [client, State.setSession_self] at hle hcounted ⊢
      omega
    · simp [client]
    · intro _ k old hsource
      have hold : source r.entries = some (k, old) := by
        rw [← hsource]
        exact ((congrArg source hentries).trans rfl).symm
      obtain ⟨rfl, content, -, hfile⟩ := hs.known (by simp [client, hpc]) k old hold
      refine ⟨?_, _, (congrArg onDisk hentries).trans rfl, ?_⟩
      · simp [client]
      · exact recordAt_writeAt_self _ _ hfile
    · intro _
      have hsome := hs.saving (by simp [client, hpc, Pc.inSave])
      exact (congrArg (fun e => (source e).isSome) hentries).trans hsome
    · simp [Unreported, client]
  | answerNo symbol tmpRecord hpc hno => exact absurd hpc (hs.unreported tmpRecord)
  | answerYes symbol tmpRecord hpc hyes => exact absurd hpc (hs.unreported tmpRecord)

theorem next_tracks (hs : Tracks r) (hperm : Entered r a) (hok : ComparesLoaded r a)
    (hnext : next r a = some r') : Tracks r' := by
  obtain ⟨hstate, hr'⟩ := next_eq_some hnext
  obtain ⟨_, hstep⟩ := State.next_step hstate
  rw [hr']
  exact tracks_step hstep hs hperm hok

/-- A comparison after a save of something else reports a change. -/
theorem next_reports (hs : Tracks r) (hok : ¬ ComparesLoaded r a) (hnext : next r a = some r') :
    ¬ Unreported r' := by
  obtain ⟨hstate, hr'⟩ := next_eq_some hnext
  obtain ⟨_, hstep⟩ := State.next_step hstate
  generalize r'.state = t at hstep hr'
  cases a with
  | transfer i junk =>
    obtain ⟨hpc, hsaved⟩ := Classical.not_imp.mp hok
    rw [← hs.same_iff hpc junk] at hsaved
    cases hstep with
    | compareChanged _ hpc' hdiff =>
      intro h
      apply h (junk.fill 0 (r.state.file.readAt r.client.offset))
      rw [hr']
      simp [client]
    | compareSame _ hpc' hsame => exact absurd hsame hsaved
    | readAll _ hpc' | load _ hpc' =>
      rw [client, hpc'] at hpc
      cases hpc
    | write _ prompted hpc' =>
      rw [client, hpc'] at hpc
      cases hpc
  | _ => exact absurd trivial hok

/-- The invariant of a client that saves records as it loaded them. -/
structure InStep (r : Solo) : Prop extends Tracks r where
  loaded : ∀ origin ∈ source r.entries, onDisk r.entries = some origin.2

theorem initial_inStep (file : File) : InStep (initial file : Solo) where
  toTracks := initial_tracks file
  loaded := by simp [initial, entries, source]

theorem InStep.comparesLoaded (h : InStep r) (a : Action Unit) : ComparesLoaded r a := by
  cases a with
  | transfer i junk =>
    intro _ origin horigin content hcontent
    rw [h.loaded origin horigin] at hcontent
    obtain rfl := Option.mem_some.mp hcontent
    exact ⟨rfl, rfl, rfl⟩
  | _ => trivial

theorem InStep.synced (h : InStep r) : Synced r := by
  intro hpc
  obtain ⟨⟨k, old⟩, hsource⟩ := Option.isSome_iff_exists.mp (h.saving (by rw [hpc]; rfl))
  obtain ⟨rfl, content, hdisk, hfile⟩ := h.known (by simp [hpc]) k old hsource
  have hcontent : content = old := by
    rw [h.loaded _ hsource] at hdisk
    exact (Option.some_inj.mp hdisk).symm
  rw [hfile, hcontent, h.traced.source _ old hsource]

theorem loaded_step (h : State.Step r.state () a t) (hs : InStep r) (hok : WritesLoaded r a) :
    ∀ origin ∈ source (r.note a).entries, onDisk (r.note a).entries = some origin.2 := by
  cases h with
  | start record newRecord hpc =>
    rw [entries, note, enter_journal_self]
    simp [source]
  | rewrite name address semester hpc =>
    rw [entries, note, enter_journal_self]
    exact hs.loaded
  | load junk hpc =>
    rw [entries, note, hpc]
    simp [source, onDisk]
  | write junk prompted hpc =>
    rw [entries, note, hpc]
    simp only [enter_journal_self, source, onDisk]
    intro origin horigin
    have hnew : r.client.newRecord = r.client.record := hok (by rw [client, hpc]; rfl)
    have hrecord := hs.traced.source origin.1 origin.2 horigin
    exact congrArg some (hnew.trans hrecord)
  | readAll junk hpc | compareSame junk hpc hsame | compareChanged junk hpc hdiff =>
    rw [entries, note, hpc]
    exact hs.loaded
  | answerNo symbol tmpRecord hpc hno => exact absurd hpc (hs.unreported tmpRecord)
  | answerYes symbol tmpRecord hpc hyes => exact absurd hpc (hs.unreported tmpRecord)
  | print | getTooBig | get | save | quit | lockAll | unlockAll | lockRead | unlockRead
  | lockWrite | unlockWrite | fail => exact hs.loaded

theorem next_inStep (hs : InStep r) (hperm : Entered r a) (hok : WritesLoaded r a)
    (hnext : next r a = some r') : InStep r' where
  toTracks := next_tracks hs.toTracks hperm (hs.comparesLoaded a) hnext
  loaded := by
    obtain ⟨hstate, hr'⟩ := next_eq_some hnext
    obtain ⟨_, hstep⟩ := State.next_step hstate
    rw [hr']
    exact loaded_step hstep hs hok

/-- A write of anything but the loaded record leaves `record` behind. -/
theorem next_not_synced (hs : InStep r) (hok : ¬ WritesLoaded r a) (hnext : next r a = some r') :
    ¬ Synced r' := by
  obtain ⟨hstate, hr'⟩ := next_eq_some hnext
  obtain ⟨_, hstep⟩ := State.next_step hstate
  generalize r'.state = t at hstep hr'
  cases a with
  | transfer i junk =>
    obtain ⟨hwrites, hne⟩ := Classical.not_imp.mp hok
    cases hstep with
    | write _ prompted hpc =>
      intro hsynced
      obtain ⟨⟨k, old⟩, hsource⟩ := Option.isSome_iff_exists.mp
        (hs.saving (by simp [client, hpc, Pc.inSave]))
      obtain ⟨rfl, content, -, hfile⟩ := hs.known (by simp [client, hpc]) k old hsource
      have hdisk := hsynced (by rw [hr']; simp [client])
      rw [hr'] at hdisk
      simp only [client, State.setSession_self] at hdisk
      have hself := recordAt_writeAt_self r.client.offset r.client.newRecord hfile
      exact hne (Option.some_inj.mp (hself.symm.trans hdisk))
    | readAll _ hpc | load _ hpc =>
      rw [client, hpc] at hwrites
      cases hwrites
    | compareSame _ hpc hsame =>
      rw [client, hpc] at hwrites
      cases hwrites
    | compareChanged _ hpc hdiff =>
      rw [client, hpc] at hwrites
      cases hwrites
  | _ => exact absurd trivial hok

/-- A client alone is told of a change exactly where it saves again, without a `g` in between,
after a save of something else than it loaded; and `record` is what is on disk after every save
exactly where every save is of the record as it was loaded. -/
theorem noFalseConflict_iff {file : File} {as : List (Action Unit)} {r : Solo}
    (hperm : StepsMeet next Entered (initial file) as)
    (hrun : exec next (initial file) as = some r) :
    (Throughout next Unreported (initial file) as ↔
      StepsMeet next ComparesLoaded (initial file) as) ∧
    (Throughout next Synced (initial file) as ↔
      StepsMeet next WritesLoaded (initial file) as) := by
  constructor
  · apply throughout_iff_stepsMeet_of_permitted (I := Tracks) _ _ _ (initial_tracks file) hperm hrun
    · exact fun _ _ _ hs hp hok hnext => next_tracks hs hp hok hnext
    · exact fun _ hs => hs.unreported
    · exact fun _ _ _ hs _ hok hnext => next_reports hs hok hnext
  · apply throughout_iff_stepsMeet_of_permitted (I := InStep) _ _ _ (initial_inStep file) hperm hrun
    · exact fun _ _ _ hs hp hok hnext => next_inStep hs hp hok hnext
    · exact fun _ hs => hs.synced
    · exact fun _ _ _ hs _ hok hnext => next_not_synced hs hok hnext

/-- The client loads record `0`, edits it and saves it twice. -/
def savesTwice : List (Action Unit) :=
  [.start () .zero .zero, .get () 0, .fcntl (), .transfer () .zero, .fcntl (),
    .rewrite () (some [65, 10]) (some [66, 10]) (some 3),
    .save (), .fcntl (), .transfer () .zero, .transfer () .zero, .fcntl (),
    .save (), .fcntl (), .transfer () .zero]

theorem noFalseConflict_iff_savesTwice :
    (exec next (initial Record.zero.bytes) savesTwice).isSome = true ∧
    ∀ r, exec next (initial Record.zero.bytes) savesTwice = some r →
      (Throughout next Unreported (initial Record.zero.bytes) savesTwice ↔
        StepsMeet next ComparesLoaded (initial Record.zero.bytes) savesTwice) ∧
      (Throughout next Synced (initial Record.zero.bytes) savesTwice ↔
        StepsMeet next WritesLoaded (initial Record.zero.bytes) savesTwice) :=
  ⟨by decide +kernel, fun _ => noFalseConflict_iff (by decide +kernel)⟩

/-- The second save reports the first one. -/
theorem savesTwice_reports :
    StepsMeet next Entered (initial Record.zero.bytes) savesTwice ∧
    ¬ Throughout next Unreported (initial Record.zero.bytes) savesTwice := by
  refine ⟨by decide +kernel, fun h => ?_⟩
  have hlast : (exec next (initial Record.zero.bytes) savesTwice).map
      (fun r => decide (r.client.pc =
        .prompting (Record.zero.modifyRecord (some [65, 10]) (some [66, 10]) (some 3)))) =
      some true := by
    decide +kernel
  obtain ⟨r, hrun, hpc⟩ := Option.map_eq_some_iff.mp hlast
  exact h savesTwice (List.prefix_refl _) r hrun _ (of_decide_eq_true hpc)

end Journaled

end OsispLabs.Lab7
