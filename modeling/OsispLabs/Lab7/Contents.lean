import OsispLabs.Lab7.EditOrigin
import OsispLabs.Lab7.Format
import OsispLabs.Lab7.LostUpdate

/-!
# What the records of the file can contain

The editors put nothing into an existing record but what `modifyRecord` makes of a record of the
file, as long as `s` is entered after an `r` or after a declined conflict. So a property of records
that `modifyRecord` keeps is kept by any number of clients.
-/
namespace OsispLabs.Lab7
open Lib

/-- What `newRecord` holds: the product of the last `r`, or the record of a declined conflict. -/
def pending : List Entry → Option Record
  | .edited name address semester :: entries =>
    (source entries).map fun origin => origin.2.modifyRecord name address semester
  | .declined _ content :: _ => content
  | .loaded .. :: entries | .saved .. :: entries => pending entries
  | .opened :: _ | [] => none

/-- What has been read of the file has the property. -/
def Entry.Holds (P : Record → Prop) : Entry → Prop
  | .loaded _ content | .declined _ content => ∀ c ∈ content, P c
  | .opened | .edited .. | .saved .. => True

/-- All whole records of the file have the property. -/
def File.Holds (P : Record → Prop) (file : File) : Prop := ∀ k c, file.record? k = some c → P c

variable {P : Record → Prop} {file : File} {entries : List Entry}

theorem source_holds (h : ∀ entry ∈ entries, entry.Holds P) {k : ℤ} {c : Record}
    (hsource : source entries = some (k, c)) : P c := by
  induction entries with
  | nil => cases hsource
  | cons entry entries ih =>
    have hhead := h entry List.mem_cons_self
    have htail : ∀ e ∈ entries, e.Holds P := fun e he => h e (List.mem_cons_of_mem _ he)
    cases entry with
    | opened => cases hsource
    | loaded m content | declined m content =>
      obtain ⟨d, hd, hpair⟩ := Option.map_eq_some_iff.mp hsource
      obtain ⟨-, rfl⟩ := Prod.mk.inj hpair
      exact hhead d hd
    | edited | saved => exact ih htail hsource

/-- What is about to be saved has a property that `modifyRecord` keeps. -/
theorem pending_holds (hmodify : ∀ r name address semester, P r →
    P (r.modifyRecord name address semester)) (h : ∀ entry ∈ entries, entry.Holds P) {c : Record}
    (hpending : pending entries = some c) : P c := by
  induction entries with
  | nil => cases hpending
  | cons entry entries ih =>
    have hhead := h entry List.mem_cons_self
    have htail : ∀ e ∈ entries, e.Holds P := fun e he => h e (List.mem_cons_of_mem _ he)
    cases entry with
    | opened => cases hpending
    | declined m content => exact hhead c hpending
    | edited name address semester =>
      obtain ⟨origin, horigin, rfl⟩ := Option.map_eq_some_iff.mp hpending
      exact hmodify _ _ _ _ (source_holds htail horigin)
    | loaded | saved => exact ih htail hpending

theorem File.Holds.recordAt (h : file.Holds P) {k : ℤ} : ∀ c ∈ file.recordAt k, P c := by
  intro c hc
  rw [Option.mem_def, File.recordAt] at hc
  split at hc
  · exact h _ c hc
  · cases hc

/-- A write to an existing record. -/
theorem File.Holds.writeAt (h : file.Holds P) {k : ℕ} (hk : recordSize * (k + 1) ≤ file.length)
    {r : Record} (hr : P r) : (file.writeAt (recordSize * k) r).Holds P := by
  have hk' : recordSize * k + recordSize ≤ file.length := by rwa [Nat.mul_succ] at hk
  intro m c hc
  by_cases hm : m = k
  · subst hm
    rw [File.record?_writeAt_self r (by omega)] at hc
    exact Option.some.inj hc ▸ hr
  · have hin : recordSize * (m + 1) ≤ file.length := by
      rw [← File.writeAt_length r hk', ← File.record?_isSome_iff, hc]
      rfl
    rw [File.record?_writeAt_ne file r hm hin] at hc
    exact h m c hc

/-- What edits make of a record. -/
inductive Edited (old : Record) : Record → Prop
  | refl : Edited old old
  | modify {c : Record} (name address : Option (List UInt8)) (semester : Option UInt8)
      (h : Edited old c) : Edited old (c.modifyRecord name address semester)

theorem Edited.terminated {old c : Record} (h : Edited old c) (hold : old.Terminated) :
    c.Terminated := by
  induction h with
  | refl => exact hold
  | modify name address semester _ ih => exact ih.modifyRecord name address semester

namespace Journaled

variable {I : Type*} [DecidableEq I]

/-- A client that comes to the `write` of `saveRecord` has something to save. -/
def SavesPending (r : Journaled I) : Action I → Prop
  | .transfer i _ => (r.state.session i).pc.writes = true → (pending (r.journal i)).isSome = true
  | _ => True

instance (r : Journaled I) : (a : Action I) → Decidable (SavesPending r a)
  | .transfer _ _ => inferInstanceAs (Decidable (_ → _))
  | .start .. | .print _ | .get .. | .rewrite .. | .save _ | .quit _ | .fcntl _ | .fail _ |
    .answer .. => isTrue trivial

/-- The conditions on the commands: record numbers exist, and `s` comes after `r`. -/
def Entitled (r : Journaled I) (a : Action I) : Prop := NamesExisting r.state a ∧ SavesPending r a

instance (r : Journaled I) (a : Action I) : Decidable (Entitled r a) :=
  inferInstanceAs (Decidable (_ ∧ _))

/-- A client has read nothing but records with the property, and knows what it is about to save. -/
structure Keeps (P : Record → Prop) (length : ℕ) (fetched : Option Record) (entries : List Entry)
    (c : Session) : Prop where
  traced : Traced fetched entries c
  located : ∃ k : ℕ, c.currentRecord = k ∧ (k = 0 ∨ recordSize * (k + 1) ≤ length)
  fetched : ∀ d ∈ fetched, P d
  noted : ∀ entry ∈ entries, entry.Holds P
  unsaved : ∀ d, pending entries = some d → c.newRecord = d

/-- The invariant of all clients. -/
structure Holding (P : Record → Prop) (length : ℕ) (r : Journaled I) : Prop where
  fileLength : r.state.file.length = length
  holds : r.state.file.Holds P
  keeps : ∀ i, Keeps P length (r.fetched i) (r.journal i) (r.state.session i)

variable [Fintype I] {r r' : Journaled I} {t : State I} {i : I} {a : Action I} {length : ℕ}

omit [DecidableEq I] [Fintype I] in
theorem initial_holding (h : file.Holds P) :
    Holding P file.length (initial file : Journaled I) where
  fileLength := rfl
  holds := h
  keeps i := by
    refine ⟨?_, ⟨0, rfl, .inl rfl⟩, by simp [initial], by simp [initial],
      by simp [initial, pending]⟩
    constructor <;> simp [initial, State.initial, source, edit]

omit [Fintype I] in
theorem located_self (h : State.Step r.state i a t) (hnames : NamesExisting r.state a)
    (hs : ∃ k : ℕ, (r.state.session i).currentRecord = k ∧
      (k = 0 ∨ recordSize * (k + 1) ≤ r.state.file.length)) :
    ∃ k : ℕ, (t.session i).currentRecord = k ∧
      (k = 0 ∨ recordSize * (k + 1) ≤ r.state.file.length) := by
  cases h with
  | start record newRecord hpc =>
    simp only [State.setSession_self]
    exact ⟨0, rfl, .inl rfl⟩
  | getTooBig n hpc hbig | get n hpc hlt =>
    simp only [State.setSession_self]
    exact ⟨n.toNat, (Int.toNat_of_nonneg hnames.1).symm, .inr hnames.2⟩
  | print hpc | quit hpc | lockAll hpc hg | lockRead hpc hg | lockWrite hpc hg | fail hpc
  | answerYes symbol tmpRecord hpc hyes =>
    simpa only [State.goto_self] using hs
  | unlockAll hpc | unlockRead hpc hle | unlockWrite hpc =>
    simpa only [State.unlock_self] using hs
  | rewrite name address semester hpc | save hpc | readAll junk hpc | load junk hpc
  | compareSame junk hpc hsame | compareChanged junk hpc hdiff | write junk prompted hpc
  | answerNo symbol tmpRecord hpc hno =>
    simpa only [State.setSession_self] using hs

omit [Fintype I] in
/-- What a step reads of the file and notes down. -/
theorem note_holds (h : State.Step r.state i a t) (hfile : r.state.file.Holds P)
    (hs : Keeps P length (r.fetched i) (r.journal i) (r.state.session i)) :
    (∀ d ∈ (r.note a).fetched i, P d) ∧ ∀ entry ∈ (r.note a).journal i, entry.Holds P := by
  have henter : ∀ entry : Entry, entry.Holds P → ∀ e ∈ entry :: r.journal i, e.Holds P := by
    intro entry hentry e he
    rcases List.mem_cons.mp he with rfl | he
    · exact hentry
    · exact hs.noted e he
  cases h with
  | start | rewrite =>
    simp only [note, enter_journal_self]
    exact ⟨hs.fetched, henter _ trivial⟩
  | load junk hpc =>
    simp only [note, hpc, enter_journal_self, fetch_journal]
    refine ⟨?_, henter _ hfile.recordAt⟩
    simp only [enter, fetch_fetched_self]
    exact hfile.recordAt
  | compareSame junk hpc hsame | compareChanged junk hpc hdiff =>
    simp only [note, hpc, fetch_fetched_self, fetch_journal]
    exact ⟨hfile.recordAt, hs.noted⟩
  | write junk prompted hpc =>
    simp only [note, hpc, enter_journal_self]
    exact ⟨hs.fetched, henter _ trivial⟩
  | readAll junk hpc =>
    simp only [note, hpc]
    exact ⟨hs.fetched, hs.noted⟩
  | answerNo symbol tmpRecord hpc hno =>
    simp only [note, if_pos hno, enter_journal_self]
    exact ⟨hs.fetched, henter _ hs.fetched⟩
  | answerYes symbol tmpRecord hpc hyes =>
    simp only [note, if_neg hyes]
    exact ⟨hs.fetched, hs.noted⟩
  | print | getTooBig | get | save | quit | lockAll | unlockAll | lockRead | unlockRead
  | lockWrite | unlockWrite | fail => exact ⟨hs.fetched, hs.noted⟩

omit [Fintype I] in
theorem pending_self (h : State.Step r.state i a t)
    (hs : Keeps P length (r.fetched i) (r.journal i) (r.state.session i)) :
    ∀ d, pending ((r.note a).journal i) = some d → (t.session i).newRecord = d := by
  cases h with
  | start record newRecord hpc =>
    simp only [note, enter_journal_self]
    simp [pending]
  | rewrite name address semester hpc =>
    simp only [note, enter_journal_self, State.setSession_self]
    intro d hd
    obtain ⟨origin, horigin, rfl⟩ := Option.map_eq_some_iff.mp hd
    rw [hs.traced.source origin.1 origin.2 horigin]
  | load junk hpc =>
    simp only [note, hpc, enter_journal_self, State.setSession_self]
    exact hs.unsaved
  | readAll junk hpc | compareSame junk hpc hsame | compareChanged junk hpc hdiff =>
    simp only [note, hpc, State.setSession_self]
    exact hs.unsaved
  | write junk prompted hpc =>
    simp only [note, hpc, enter_journal_self, State.setSession_self]
    exact hs.unsaved
  | answerNo symbol tmpRecord hpc hno =>
    simp only [note, if_pos hno, enter_journal_self, State.setSession_self]
    exact fun d hd => hs.traced.prompting tmpRecord d hpc hd
  | answerYes symbol tmpRecord hpc hyes =>
    simp only [note, if_neg hyes, State.goto_self]
    exact hs.unsaved
  | getTooBig n hpc hbig | get n hpc hlt | save hpc =>
    simp only [State.setSession_self]
    exact hs.unsaved
  | print hpc | quit hpc | lockAll hpc hg | lockRead hpc hg | lockWrite hpc hg | fail hpc =>
    simp only [State.goto_self]
    exact hs.unsaved
  | unlockAll hpc | unlockRead hpc hle | unlockWrite hpc =>
    simp only [State.unlock_self]
    exact hs.unsaved

section Run

variable (hmodify : ∀ r name address semester, P r → P (r.modifyRecord name address semester))
  (hlength : ∀ c, P c → recordSize ≤ length)
include hmodify hlength

omit [Fintype I] in
/-- The only change of the file is a write of such a record in the place of another one. -/
theorem file_holds (h : State.Step r.state i a t) (hs : Holding P length r)
    (hok : SavesPending r a) : t.file.length = length ∧ t.file.Holds P := by
  cases h with
  | write junk prompted hpc =>
    have hkeeps := hs.keeps i
    obtain ⟨c, hc⟩ := Option.isSome_iff_exists.mp (hok (by rw [hpc]; rfl))
    have hnew := hkeeps.unsaved c hc
    have hP := pending_holds hmodify hkeeps.noted hc
    obtain ⟨k, hk, hin⟩ := hkeeps.located
    have hexists : recordSize * (k + 1) ≤ r.state.file.length := by
      rw [hs.fileLength]
      rcases hin with rfl | hin
      · exact hlength c hP
      · exact hin
    simp only [hk, seek_natCast, hnew]
    refine ⟨?_, hs.holds.writeAt hexists hP⟩
    rw [File.writeAt_length c (by rwa [Nat.mul_succ] at hexists), hs.fileLength]
  | _ => exact ⟨hs.fileLength, hs.holds⟩

theorem holding_step (hs : Holding P length r) (hok : Entitled r a) (h : next r a = some r') :
    Holding P length r' := by
  obtain ⟨hstate, hnote⟩ := next_eq_some h
  obtain ⟨i, hstep⟩ := State.next_step hstate
  rw [hnote]
  generalize r'.state = t at hstep
  obtain ⟨hlen, hfile⟩ := file_holds hmodify hlength hstep hs hok.2
  refine ⟨hlen, hfile, fun j => ?_⟩
  by_cases hj : j = i
  · subst hj
    have hkeeps := hs.keeps j
    obtain ⟨hfetched, hentries⟩ := note_holds hstep hs.holds hkeeps
    have hlocated := located_self hstep hok.1 (by rw [hs.fileLength]; exact hkeeps.located)
    rw [hs.fileLength] at hlocated
    exact ⟨traced_self hstep hkeeps.traced, hlocated, hfetched, hentries,
      pending_self hstep hkeeps⟩
  · obtain ⟨-, hfetched, hjournal⟩ := note_ne hstep hj
    simp only [hfetched, hjournal, hstep.session_ne hj]
    exact hs.keeps j

omit hlength in
/-- In every interleaving, the file keeps its size, and its records keep a property that
`modifyRecord` keeps. -/
theorem run_holds (hfile : file.Holds P) {as : List (Action I)}
    (hok : StepsMeet next Entitled (initial file) as)
    (hrun : exec next (initial file) as = some r) :
    r.state.file.length = file.length ∧ r.state.file.Holds P := by
  have hmodify' : ∀ s name address semester, P s ∧ recordSize ≤ file.length →
      P (s.modifyRecord name address semester) ∧ recordSize ≤ file.length :=
    fun s name address semester hs => ⟨hmodify s name address semester hs.1, hs.2⟩
  have hfile' : file.Holds fun c => P c ∧ recordSize ≤ file.length := by
    intro k c hc
    have hin : recordSize * (k + 1) ≤ file.length := by
      rw [← File.record?_isSome_iff, hc]
      rfl
    exact ⟨hfile k c hc, Nat.le_trans (Nat.le_mul_of_pos_right _ (Nat.succ_pos k)) hin⟩
  have hinv := exec_invariant_of_steps
    (fun _ _ _ hs ha hnext => holding_step hmodify' (fun _ hc => hc.2) hs ha hnext)
    (initial_holding hfile') hok hrun
  exact ⟨hinv.fileLength, fun k c hc => (hinv.holds k c hc).1⟩

end Run

/-- In every interleaving of editors on a created file, each record that `readFile` prints is one
that was created or an edit of one, and its strings end inside their fields. -/
theorem run_createFile (numRecords : ℤ) (junk : ℕ → Record) (rand : ℕ → ℕ) (as : List (Action I))
    (r : Journaled I)
    (hok : StepsMeet next Entitled (initial (createFile numRecords junk rand)) as)
    (hrun : exec next (initial (createFile numRecords junk rand)) as = some r) :
    (readFile r.state.file).length = numRecords.toNat ∧ ∀ c ∈ readFile r.state.file,
      c.Terminated ∧ ∃ old ∈ createdRecords numRecords junk rand, Edited old c := by
  have hread := readFile_created numRecords junk rand
  have hfile : (createFile numRecords junk rand).Holds fun c =>
      ∃ old ∈ createdRecords numRecords junk rand, Edited old c := by
    intro k c hc
    refine ⟨c, ?_, .refl⟩
    rw [← hread]
    exact List.mem_of_getElem? (by rw [getElem?_readFile, hc])
  obtain ⟨hlength, hholds⟩ := run_holds (fun _ name address semester ⟨old, hold, h⟩ =>
    ⟨old, hold, h.modify name address semester⟩) hfile hok hrun
  refine ⟨?_, fun c hc => ?_⟩
  · rw [← length_createdRecords numRecords junk rand, ← hread, readFile, readFile, Layout.loadAll,
      Layout.loadAll, Layout.length_load, Layout.length_load, hlength]
  · obtain ⟨k, hk⟩ := List.mem_iff_getElem?.mp hc
    rw [getElem?_readFile] at hk
    obtain ⟨old, hold, hedited⟩ := hholds k c hk
    exact ⟨hedited.terminated (created_of_mem hold).2, old, hold, hedited⟩

/-- Two clients edit both records, the second one after a conflict that it declines. -/
def edits : List (Action Bool) :=
  [.start false .zero .zero, .start true .zero .zero, .get false 0, .fcntl false,
    .transfer false .zero, .fcntl false, .get true 0, .fcntl true, .transfer true .zero,
    .fcntl true, .rewrite false (some [65, 10]) none (some 3), .save false, .fcntl false,
    .transfer false .zero, .transfer false .zero, .fcntl false, .rewrite true none none (some 4),
    .save true, .fcntl true, .transfer true .zero, .answer true 'n'.toUInt8, .save true,
    .fcntl true, .transfer true .zero, .transfer true .zero]

theorem run_createFile_edits :
    (exec next (initial (createFile 2 (fun _ => .zero) id)) edits).map
        (fun r => (r.journal true).length) = some 5 ∧
      ∀ r, exec next (initial (createFile 2 (fun _ => .zero) id)) edits = some r →
        (readFile r.state.file).length = 2 ∧ ∀ c ∈ readFile r.state.file,
          c.Terminated ∧ ∃ old ∈ createdRecords 2 (fun _ => .zero) id, Edited old c :=
  ⟨by decide +kernel,
    fun r => run_createFile 2 (fun _ => .zero) id edits r (by decide +kernel)⟩

end Journaled

end OsispLabs.Lab7
