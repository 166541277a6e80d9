import OsispLabs.Lab7.Journal

/-!
# Edits return to their record

What `saveRecord` writes to a record is an edit of the content last loaded from that record, in
every interleaving in which a client that writes has entered `r` after it loaded the record, and
has not loaded it again. The program keeps `currentRecord`, `record` and `newRecord` separately and
checks none of this.
-/
namespace OsispLabs.Lab7
open Lib

/-- Everything saved to a record is what `modifyRecord` produced, in the same session, from the
content last loaded from the record. -/
def Returned : List Entry → Prop
  | .saved k content :: entries =>
    (∃ old, edit entries = some (k, old, content) ∧ lastLoaded k entries = some old) ∧
      Returned entries
  | .loaded .. :: entries | .edited .. :: entries | .declined .. :: entries | .opened :: entries =>
    Returned entries
  | [] => True

/-- The last `r` was entered when record `k` was the last one loaded. Since then record `k` has not
been loaded again, and no conflict has been declined. -/
def Edits (k : ℤ) : List Entry → Prop
  | .edited .. :: entries => (source entries).map Prod.fst = some k
  | .loaded m _ :: entries => m ≠ k ∧ Edits k entries
  | .saved .. :: entries => Edits k entries
  | .declined .. :: _ | .opened :: _ | [] => False

instance Edits.decidable (k : ℤ) : (entries : List Entry) → Decidable (Edits k entries)
  | .edited .. :: _ => inferInstanceAs (Decidable (_ = _))
  | .loaded m _ :: entries =>
    have := Edits.decidable k entries
    inferInstanceAs (Decidable (m ≠ k ∧ Edits k entries))
  | .saved .. :: entries => Edits.decidable k entries
  | .declined .. :: _ | .opened :: _ | [] => isFalse id

/-- The client is at the `write` of `saveRecord`. -/
def Pc.writes : Pc → Bool
  | .writing _ => true
  | _ => false

theorem lastLoaded_of_source {entries : List Entry} {k : ℤ} {c : Record}
    (h : source entries = some (k, c)) : lastLoaded k entries = some c := by
  induction entries with
  | nil => cases h
  | cons entry entries ih =>
    cases entry with
    | opened => cases h
    | loaded m content | declined m content =>
      obtain ⟨d, rfl, hpair⟩ := Option.map_eq_some_iff.mp h
      obtain ⟨rfl, rfl⟩ := Prod.mk.inj hpair
      exact if_pos rfl
    | edited | saved => exact ih h

theorem Edits.exists_edit {entries : List Entry} {k : ℤ} (h : Edits k entries) :
    ∃ old new, edit entries = some (k, old, new) ∧ lastLoaded k entries = some old := by
  induction entries with
  | nil => exact h.elim
  | cons entry entries ih =>
    cases entry with
    | opened | declined => exact h.elim
    | loaded m content =>
      obtain ⟨old, new, hedit, hlast⟩ := ih h.2
      refine ⟨old, new, hedit, ?_⟩
      rw [lastLoaded, if_neg h.1]
      exact hlast
    | edited name address semester =>
      obtain ⟨⟨m, old⟩, hsource, rfl⟩ := Option.map_eq_some_iff.mp h
      refine ⟨old, old.modifyRecord name address semester, ?_, lastLoaded_of_source hsource⟩
      rw [edit, hsource]
      rfl
    | saved => exact ih h

/-- What was read of a record that the file has is its content. -/
theorem fill_readAt {file : File} {k : ℤ} {offset : ℕ} {c : Record} (r : Record)
    (h : file.recordAt k = some c) (hoffset : 0 ≤ k → offset = recordSize * k.toNat) :
    r.fill 0 (file.readAt offset) = c := by
  unfold File.recordAt at h
  split at h
  · rw [hoffset ‹_›, File.readAt_of_record? h, Record.fill_full _ c.size]
  · cases h

/-- The variables of a session hold what its journal says. -/
structure Traced (fetched : Option Record) (entries : List Entry) (c : Session) : Prop where
  aimed : c.pc ∈ [.loading, .loadLocked, .saving, .saveLocked] → 0 ≤ c.currentRecord →
    c.offset = recordSize * c.currentRecord.toNat
  prompting : ∀ tmpRecord old, c.pc = .prompting tmpRecord → fetched = some old → tmpRecord = old
  source : ∀ k old, source entries = some (k, old) → c.record = old
  edit : ∀ k old new, edit entries = some (k, old, new) → c.newRecord = new

theorem Traced.move {fetched fetched' : Option Record} {entries : List Entry} {c d : Session}
    (hs : Traced fetched entries c) (hrecord : d.record = c.record)
    (hnew : d.newRecord = c.newRecord)
    (haimed : d.pc ∈ [.loading, .loadLocked, .saving, .saveLocked] → 0 ≤ d.currentRecord →
      d.offset = recordSize * d.currentRecord.toNat)
    (hprompting : ∀ tmpRecord old, d.pc = .prompting tmpRecord → fetched' = some old →
      tmpRecord = old) : Traced fetched' entries d where
  aimed := haimed
  prompting := hprompting
  source k old h := hrecord.trans (hs.source k old h)
  edit k old new h := hnew.trans (hs.edit k old new h)

namespace Journaled

variable {I : Type*} [DecidableEq I]

/-- A client that comes to the `write` of `saveRecord` has edited the current record. -/
def SavesEdit (r : Journaled I) : Action I → Prop
  | .transfer i _ => (r.state.session i).pc.writes = true →
    Edits (r.state.session i).currentRecord (r.journal i)
  | _ => True

instance (r : Journaled I) : (a : Action I) → Decidable (SavesEdit r a)
  | .transfer _ _ => inferInstanceAs (Decidable (_ → _))
  | .start .. | .print _ | .get .. | .rewrite .. | .save _ | .quit _ | .fcntl _ | .fail _ |
    .answer .. => isTrue trivial

variable [Fintype I] {r r' : Journaled I} {t : State I} {i : I} {a : Action I}

omit [Fintype I] in
theorem traced_self (h : State.Step r.state i a t)
    (hs : Traced (r.fetched i) (r.journal i) (r.state.session i)) :
    Traced ((r.note a).fetched i) ((r.note a).journal i) (t.session i) := by
  have hseek : ∀ offset (k : ℤ), 0 ≤ k → seek offset k = recordSize * k.toNat :=
    fun offset k hk => if_pos hk
  cases h with
  | start record newRecord hpc =>
    simp only [State.setSession_self, note, enter_journal_self]
    constructor <;> simp [source, edit]
  | print hpc | quit hpc =>
    simp only [State.goto_self]
    exact hs.move rfl rfl (by simp) (by simp)
  | getTooBig n hpc hbig =>
    simp only [State.setSession_self]
    exact hs.move rfl rfl (by simp [hpc]) (by simp [hpc])
  | get n hpc hlt =>
    simp only [State.setSession_self]
    exact hs.move rfl rfl (fun _ => hseek _ n) (by simp)
  | rewrite name address semester hpc =>
    simp only [State.setSession_self, note, enter_journal_self]
    refine ⟨by simp [hpc], by simp [hpc], hs.source, ?_⟩
    intro k old new hnew
    obtain ⟨origin, horigin, hproduct⟩ := Option.map_eq_some_iff.mp hnew
    simp only [Prod.mk.injEq] at hproduct
    obtain ⟨rfl, rfl, rfl⟩ := hproduct
    rw [hs.source origin.1 origin.2 horigin]
  | save hpc =>
    simp only [State.setSession_self]
    exact hs.move rfl rfl (fun _ => hseek _ _) (by simp)
  | lockAll hpc hg | fail hpc =>
    simp only [State.goto_self]
    exact hs.move rfl rfl (by simp) (by simp)
  | lockRead hpc hg | lockWrite hpc hg =>
    simp only [State.goto_self]
    exact hs.move rfl rfl (fun _ => hs.aimed (by simp [hpc])) (by simp)
  | unlockAll hpc | unlockRead hpc hle | unlockWrite hpc =>
    simp only [State.unlock_self]
    exact hs.move rfl rfl (by simp) (by simp)
  | readAll junk hpc =>
    simp only [State.setSession_self, note, hpc]
    exact hs.move rfl rfl (by simp) (by simp)
  | load junk hpc =>
    simp only [State.setSession_self, note, hpc, enter_journal_self]
    refine ⟨by simp, by simp, fun k old hsource => ?_, hs.edit⟩
    obtain ⟨content, hcontent, hpair⟩ := Option.map_eq_some_iff.mp hsource
    obtain ⟨rfl, rfl⟩ := Prod.mk.inj hpair
    exact fill_readAt _ hcontent (hs.aimed (by simp [hpc]))
  | compareSame junk hpc hsame =>
    simp only [State.setSession_self, note, hpc, fetch_journal]
    exact hs.move rfl rfl (by simp) (by simp)
  | compareChanged junk hpc hdiff =>
    simp only [State.setSession_self, note, hpc, fetch_journal]
    refine hs.move rfl rfl (by simp) fun tmpRecord old hprompting hfetched => ?_
    obtain rfl := Pc.prompting.inj hprompting
    rw [fetch_fetched_self] at hfetched
    exact fill_readAt junk hfetched (hs.aimed (by simp [hpc]))
  | write junk prompted hpc =>
    simp only [State.setSession_self, note, hpc, enter_journal_self]
    exact ⟨by simp, by simp, hs.source, hs.edit⟩
  | answerNo symbol tmpRecord hpc hno =>
    simp only [State.setSession_self, note, if_pos hno, enter_journal_self]
    refine ⟨by simp, by simp, fun k old hsource => ?_, by simp [edit]⟩
    obtain ⟨content, hcontent, hpair⟩ := Option.map_eq_some_iff.mp hsource
    obtain ⟨rfl, rfl⟩ := Prod.mk.inj hpair
    exact hs.prompting tmpRecord content hpc hcontent
  | answerYes symbol tmpRecord hpc hyes =>
    simp only [State.goto_self, note, if_neg hyes]
    exact hs.move rfl rfl (by simp) (by simp)

omit [Fintype I] in
/-- A step adds at most one save, and that of the client's `newRecord` to the current record. -/
theorem returned_self (h : State.Step r.state i a t)
    (hs : Traced (r.fetched i) (r.journal i) (r.state.session i)) (hok : SavesEdit r a)
    (hreturned : Returned (r.journal i)) : Returned ((r.note a).journal i) := by
  cases h with
  | start | rewrite =>
    simp only [note, enter_journal_self]
    exact hreturned
  | load junk hpc =>
    simp only [note, hpc, enter_journal_self]
    exact hreturned
  | readAll junk hpc | compareSame junk hpc hsame | compareChanged junk hpc hdiff =>
    simp only [note, hpc]
    exact hreturned
  | write junk prompted hpc =>
    simp only [note, hpc, enter_journal_self]
    obtain ⟨old, new, hedit, hlast⟩ := (hok (by rw [hpc]; rfl)).exists_edit
    rw [← hs.edit _ old new hedit] at hedit
    exact ⟨⟨old, hedit, hlast⟩, hreturned⟩
  | answerNo symbol tmpRecord hpc hno =>
    simp only [note, if_pos hno, enter_journal_self]
    exact hreturned
  | answerYes symbol tmpRecord hpc hyes =>
    simp only [note, if_neg hyes]
    exact hreturned
  | print | getTooBig | get | save | quit | lockAll | unlockAll | lockRead | unlockRead
  | lockWrite | unlockWrite | fail => exact hreturned

/-- In every interleaving in which clients save only edits of their current record, each write to a
record is an edit of the content last loaded from it. -/
theorem run_returned (file₀ : File) (as : List (Action I)) (r : Journaled I)
    (hok : StepsMeet next SavesEdit (initial file₀) as)
    (hrun : exec next (initial file₀) as = some r) : ∀ i, Returned (r.journal i) := by
  have hinv := exec_invariant_of_steps (I := fun r : Journaled I => ∀ i,
    Traced (r.fetched i) (r.journal i) (r.state.session i) ∧ Returned (r.journal i))
    (fun r a r' hs ha hnext => ?_) (fun i => ?_) hok hrun
  · exact fun i => (hinv i).2
  · obtain ⟨hstate, hnote⟩ := next_eq_some hnext
    obtain ⟨i, hstep⟩ := State.next_step hstate
    intro j
    rw [hnote]
    by_cases hj : j = i
    · subst hj
      exact ⟨traced_self hstep (hs j).1, returned_self hstep (hs j).1 ha (hs j).2⟩
    · obtain ⟨-, hfetched, hjournal⟩ := note_ne hstep hj
      simp only [hfetched, hjournal, hstep.session_ne hj]
      exact hs j
  · refine ⟨?_, trivial⟩
    constructor <;> simp [initial, State.initial, source, edit]

/-- A client edits record `0` and saves it. -/
def editsRecord : List (Action (Fin 1)) :=
  [.start 0 .zero .zero, .get 0 0, .fcntl 0, .transfer 0 .zero, .fcntl 0,
    .rewrite 0 (some [65, 10]) (some [66, 10]) (some 3), .save 0, .fcntl 0, .transfer 0 .zero,
    .transfer 0 .zero, .fcntl 0]

theorem run_returned_editsRecord :
    ((exec next (initial Record.zero.bytes) editsRecord).map fun r => (r.journal 0).length) =
        some 4 ∧
      ∀ r, exec next (initial Record.zero.bytes) editsRecord = some r →
        ∀ i, Returned (r.journal i) :=
  ⟨by decide +kernel,
    fun r => run_returned Record.zero.bytes editsRecord r (by decide +kernel)⟩

/-- A client edits record `0`, looks at record `1` and saves. -/
def looksElsewhere : List (Action (Fin 1)) :=
  [.start 0 .zero .zero, .get 0 0, .fcntl 0, .transfer 0 .zero, .fcntl 0,
    .rewrite 0 (some [65, 10]) (some [66, 10]) (some 3),
    .get 0 1, .fcntl 0, .transfer 0 .zero, .fcntl 0, .save 0, .fcntl 0, .transfer 0 .zero,
    .transfer 0 .zero, .fcntl 0]

def editedZero : Record := Record.zero.modifyRecord (some [65, 10]) (some [66, 10]) (some 3)

def second : Record := Record.zero.modifyRecord (some [67, 10]) (some [68, 10]) (some 1)

theorem looksElsewhere_journal :
    (exec next (initial (Record.zero.bytes ++ second.bytes)) looksElsewhere).map
        (fun r => (r.state.file.recordAt 1, r.journal 0)) =
      some (some editedZero, [.saved 1 editedZero, .loaded 1 (some second),
        .edited (some [65, 10]) (some [66, 10]) (some 3), .loaded 0 (some .zero), .opened]) := by
  decide +kernel

/-- The edit of record `0` is in record `1`, and nothing was prompted. -/
theorem looksElsewhere_not_returned :
    ∃ r, exec next (initial (Record.zero.bytes ++ second.bytes)) looksElsewhere = some r ∧
      r.state.file.recordAt 1 = some editedZero ∧ ¬ Returned (r.journal 0) := by
  obtain ⟨r, hrun, hresult⟩ := Option.map_eq_some_iff.mp looksElsewhere_journal
  obtain ⟨hfile, hjournal⟩ := Prod.mk.inj hresult
  refine ⟨r, hrun, hfile, fun h => ?_⟩
  rw [hjournal] at h
  obtain ⟨⟨old, hedit, -⟩, -⟩ := h
  simp [edit, source] at hedit

end Journaled

end OsispLabs.Lab7
