import OsispLabs.Lab7.EditOrigin
import OsispLabs.Lab7.LostUpdate

/-!
# Record numbers in range

`g` stores the number it is given in `currentRecord` before it tests it, and tests it on one side
only; `s` does not test it at all. As long as every number is one of a record, all loads and
writes are of whole records of the file, by any number of clients.
-/
namespace OsispLabs.Lab7
open Lib

variable {I : Type*} [DecidableEq I] [Fintype I]

namespace State

/-- A step with a file of this many records: `g` goes on to load a record that exists and has no
effect otherwise, what is loaded is the current record, and a write is of one whole record of the
file. -/
def InRange (records : ℕ) (s : State I) (a : Action I) (t : State I) : Prop :=
  t.file.length = s.file.length ∧
  match a with
  | .get i n =>
    t.session i =
      if 0 ≤ n ∧ n < records then
        { s.session i with pc := .loading, currentRecord := n, offset := recordSize * n.toNat }
      else s.session i
  | .transfer i _ =>
    match (s.session i).pc with
    | .loadLocked =>
      ∃ k : ℕ, k < records ∧ (s.session i).currentRecord = k ∧
        s.file.record? k = some (t.session i).record
    | .writing _ =>
      ∃ k : ℕ, k < records ∧ (s.session i).currentRecord = k ∧
        t.file = s.file.writeAt (recordSize * k) (s.session i).newRecord
    | _ => t.file = s.file
  | _ => t.file = s.file

/-- The number after `g` is that of a record that `size` counts, or 0 for a file without records;
and nothing is written to such a file. -/
def ValidNumber (records : ℕ) (s : State I) : Action I → Prop
  | .get i n => (0 ≤ n ∧ n < (s.session i).size) ∨ (records = 0 ∧ n = 0)
  | .transfer i _ => (s.session i).pc.writes = true → records ≠ 0
  | _ => True

instance (records : ℕ) (s : State I) : (a : Action I) → Decidable (ValidNumber records s a)
  | .get _ _ => inferInstanceAs (Decidable (_ ∨ _))
  | .transfer _ _ => inferInstanceAs (Decidable (_ → _))
  | .start .. | .print _ | .rewrite .. | .save _ | .quit _ | .fcntl _ | .fail _ | .answer .. =>
    isTrue trivial

/-- The variables of a client that has only been given valid numbers. -/
structure Ranged (records : ℕ) (c : Session) : Prop where
  size : c.size ≤ records
  current : 0 ≤ c.currentRecord ∧ (c.currentRecord < records ∨ c.currentRecord = 0)
  loading : c.pc ∈ [.loading, .loadLocked] →
    c.currentRecord < records ∧ c.offset = recordSize * c.currentRecord.toNat

/-- The invariant of all clients. -/
structure AllRanged (length : ℕ) (s : State I) : Prop where
  fileLength : s.file.length = length
  clients : ∀ i, Ranged (length / recordSize) (s.session i)

variable {records length : ℕ} {s t : State I} {i : I} {a : Action I} {c d : Session}

theorem Ranged.move (h : Ranged records c) (hsize : d.size = c.size)
    (hcurrent : d.currentRecord = c.currentRecord)
    (hpc : d.pc ∈ [.loading, .loadLocked] →
      c.pc ∈ [.loading, .loadLocked] ∧ d.offset = c.offset) : Ranged records d where
  size := by
    rw [hsize]
    exact h.size
  current := by
    rw [hcurrent]
    exact h.current
  loading hd := by
    obtain ⟨hc, hoffset⟩ := hpc hd
    rw [hcurrent, hoffset]
    exact h.loading hc

omit [DecidableEq I] [Fintype I] in
theorem initial_allRanged (file : File) : AllRanged file.length (initial file : State I) where
  fileLength := rfl
  clients _ := ⟨Int.natCast_nonneg _, ⟨Int.le_refl 0, .inr rfl⟩, by simp [initial]⟩

omit [DecidableEq I] [Fintype I] in
/-- A record of the file before `write` is one of the file after it. -/
theorem AllRanged.le_length (hs : AllRanged length s) {k : ℕ} (hk : k < length / recordSize) :
    recordSize * k + recordSize ≤ s.file.length := by
  have hmul := Nat.mul_le_mul_left recordSize hk
  have hdiv := Nat.mul_div_le length recordSize
  rw [Nat.succ_eq_add_one, Nat.mul_succ] at hmul
  rw [hs.fileLength]
  omega

/-- The current record of a client, unless the file has none. -/
theorem Ranged.exists_current (h : Ranged records c) (hrecords : records ≠ 0) :
    ∃ k : ℕ, k < records ∧ c.currentRecord = k := by
  obtain ⟨hnonneg, hcurrent⟩ := h.current
  refine ⟨c.currentRecord.toNat, ?_, (Int.toNat_of_nonneg hnonneg).symm⟩
  omega

omit [Fintype I] in
theorem ranged_self (h : Step s i a t) (hs : AllRanged length s)
    (hok : ValidNumber (length / recordSize) s a) :
    Ranged (length / recordSize) (t.session i) := by
  have hc := hs.clients i
  cases h with
  | start record newRecord hpc =>
    have hsize := size_le length
    simp only [setSession_self, hs.fileLength]
    exact ⟨by simpa only using hsize, ⟨Int.le_refl 0, .inr rfl⟩, by simp⟩
  | getTooBig n hpc hbig =>
    simp only [setSession_self]
    obtain ⟨hnonneg, hlt⟩ | ⟨hempty, rfl⟩ := hok
    · exact absurd hlt (Int.not_lt.mpr hbig)
    · exact ⟨hc.size, ⟨Int.le_refl 0, .inr rfl⟩, by simp [hpc]⟩
  | get n hpc hlt =>
    have hsize := hc.size
    have hnonneg : 0 ≤ n := by
      obtain ⟨hnonneg, -⟩ | ⟨-, rfl⟩ := hok
      · exact hnonneg
      · exact Int.le_refl 0
    simp only [setSession_self]
    refine ⟨hsize, ⟨hnonneg, .inl (by simp only; omega)⟩, fun _ => ⟨by simp only; omega, ?_⟩⟩
    exact if_pos hnonneg
  | lockRead hpc hg =>
    simp only [goto_self]
    exact hc.move rfl rfl fun _ => ⟨by simp [hpc], rfl⟩
  | save hpc | rewrite name address semester hpc =>
    simp only [setSession_self]
    exact hc.move rfl rfl (by simp [hpc])
  | print hpc | quit hpc | lockAll hpc hg | lockWrite hpc hg | fail hpc
  | answerYes symbol tmpRecord hpc hyes =>
    simp only [goto_self]
    exact hc.move rfl rfl (by simp)
  | unlockAll hpc | unlockRead hpc hle | unlockWrite hpc =>
    simp only [unlock_self]
    exact hc.move rfl rfl (by simp)
  | readAll junk hpc | load junk hpc | compareSame junk hpc hsame | compareChanged junk hpc hdiff
  | write junk prompted hpc | answerNo symbol tmpRecord hpc hno =>
    simp only [setSession_self]
    exact hc.move rfl rfl (by simp)

omit [DecidableEq I] [Fintype I] in
/-- A write of a client that has a current record. -/
theorem AllRanged.write_eq (hs : AllRanged length s) (hrecords : length / recordSize ≠ 0) (i : I)
    (r : Record) :
    ∃ k : ℕ, k < length / recordSize ∧ (s.session i).currentRecord = k ∧
      s.file.writeAt (seek (s.session i).offset (s.session i).currentRecord) r =
        s.file.writeAt (recordSize * k) r ∧
      (s.file.writeAt (recordSize * k) r).length = s.file.length := by
  obtain ⟨k, hk, hcurrent⟩ := (hs.clients i).exists_current hrecords
  refine ⟨k, hk, hcurrent, ?_, File.writeAt_length r (hs.le_length hk)⟩
  rw [hcurrent, seek_natCast]

omit [Fintype I] in
theorem fileLength_step (h : Step s i a t) (hs : AllRanged length s)
    (hok : ValidNumber (length / recordSize) s a) : t.file.length = s.file.length := by
  cases h with
  | write junk prompted hpc =>
    obtain ⟨k, -, -, hwrite, hlength⟩ :=
      hs.write_eq (hok (by rw [hpc]; rfl)) i (s.session i).newRecord
    simp only [hwrite, hlength]
  | _ => rfl

omit [Fintype I] in
theorem allRanged_step (h : Step s i a t) (hs : AllRanged length s)
    (hok : ValidNumber (length / recordSize) s a) : AllRanged length t where
  fileLength := (fileLength_step h hs hok).trans hs.fileLength
  clients j := by
    by_cases hj : j = i
    · rw [hj]
      exact ranged_self h hs hok
    · rw [h.session_ne hj]
      exact hs.clients j

omit [DecidableEq I] [Fintype I] in
/-- What `getRecordNumb` reads is the current record. -/
theorem AllRanged.load_eq (hs : AllRanged length s) (hpc : (s.session i).pc = .loadLocked) :
    ∃ k : ℕ, k < length / recordSize ∧ (s.session i).currentRecord = k ∧
      s.file.record? k =
        some ((s.session i).record.fill 0 (s.file.readAt (s.session i).offset)) := by
  obtain ⟨hlt, hoffset⟩ := (hs.clients i).loading (by simp [hpc])
  obtain ⟨hnonneg, -⟩ := (hs.clients i).current
  obtain ⟨k, hk⟩ := Int.eq_ofNat_of_zero_le hnonneg
  rw [hk] at hlt hoffset ⊢
  have hin : k < length / recordSize := by omega
  have hsome : (s.file.record? k).isSome = true := by
    rw [File.record?_isSome_iff, Nat.mul_succ]
    exact hs.le_length hin
  obtain ⟨content, hcontent⟩ := Option.isSome_iff_exists.mp hsome
  refine ⟨k, hin, rfl, ?_⟩
  rw [hoffset, Int.toNat_natCast, File.readAt_of_record? hcontent, Record.fill_full _ content.size,
    hcontent]

/-- The range test of `g`, and what it does to the client. -/
theorem get_iff (hc : Ranged records c) (hpc : c.pc = .menu) (n : ℤ) :
    ((if c.size ≤ n then { c with currentRecord := n }
      else { c with pc := .loading, currentRecord := n, offset := seek c.offset n }) =
      (if 0 ≤ n ∧ n < records then
        { c with pc := .loading, currentRecord := n, offset := recordSize * n.toNat }
      else c)) ↔ (0 ≤ n ∧ n < c.size) ∨ (records = 0 ∧ n = 0) := by
  have hsize := hc.size
  obtain ⟨hnonneg, hcurrent⟩ := hc.current
  by_cases hbig : c.size ≤ n
  · rw [if_pos hbig]
    by_cases hin : 0 ≤ n ∧ n < records
    · rw [if_pos hin]
      constructor
      · intro heq
        have hmenu := congrArg Session.pc heq
        rw [hpc] at hmenu
        cases hmenu
      · rintro (⟨-, hlt⟩ | ⟨hempty, hzero⟩) <;> omega
    · rw [if_neg hin]
      constructor
      · intro heq
        have hn : n = c.currentRecord := congrArg Session.currentRecord heq
        right
        omega
      · rintro (⟨-, hlt⟩ | ⟨hempty, hzero⟩)
        · omega
        · have hn : n = c.currentRecord := by omega
          rw [hn]
  · rw [if_neg hbig]
    by_cases hin : 0 ≤ n ∧ n < records
    · rw [if_pos hin]
      have hseek : seek c.offset n = recordSize * n.toNat := if_pos hin.1
      rw [hseek]
      exact iff_of_true rfl (.inl ⟨hin.1, by omega⟩)
    · rw [if_neg hin]
      constructor
      · intro heq
        have hmenu := congrArg Session.pc heq
        rw [hpc] at hmenu
        cases hmenu
      · rintro (⟨hn, hlt⟩ | ⟨hempty, hzero⟩) <;> omega

omit [Fintype I] in
/-- A step does what it should exactly where the number is valid. -/
theorem inRange_iff (h : Step s i a t) (hs : AllRanged length s) :
    InRange (length / recordSize) s a t ↔ ValidNumber (length / recordSize) s a := by
  cases h with
  | getTooBig n hpc hbig =>
    have hiff := get_iff (hs.clients i) hpc n
    rw [if_pos hbig] at hiff
    simp only [InRange, ValidNumber, setSession_self, setSession_file, true_and]
    exact hiff
  | get n hpc hlt =>
    have hiff := get_iff (hs.clients i) hpc n
    rw [if_neg (Int.not_le.mpr hlt)] at hiff
    simp only [InRange, ValidNumber, setSession_self, setSession_file, true_and]
    exact hiff
  | load junk hpc =>
    obtain ⟨k, hk, hcurrent, hread⟩ := hs.load_eq hpc
    simp only [InRange, ValidNumber, hpc, setSession_self, setSession_file, Pc.writes,
      Bool.false_eq_true, false_imp_iff, iff_true, true_and]
    exact ⟨k, hk, hcurrent, hread⟩
  | write junk prompted hpc =>
    simp only [InRange, ValidNumber, hpc, Pc.writes, forall_const]
    constructor
    · rintro ⟨-, k, hk, -⟩
      exact Nat.ne_of_gt (Nat.zero_lt_of_lt hk)
    · intro hrecords
      obtain ⟨k, hk, hcurrent, hwrite, hlength⟩ :=
        hs.write_eq hrecords i (s.session i).newRecord
      exact ⟨by rw [hwrite, hlength], k, hk, hcurrent, hwrite⟩
  | readAll junk hpc | compareSame junk hpc hsame | compareChanged junk hpc hdiff =>
    simp [InRange, ValidNumber, hpc, Pc.writes]
  | start | print | rewrite | save | quit | lockAll | unlockAll | lockRead | unlockRead | lockWrite
  | unlockWrite | fail | answerNo | answerYes => exact iff_of_true ⟨rfl, rfl⟩ trivial

/-- In every interleaving of any number of clients, all steps stay inside the file's records exactly
where every number is valid. -/
theorem recordNumbers_iff {file : File} {as : List (Action I)} {t : State I}
    (hrun : exec next (initial file) as = some t) :
    EveryStep next (InRange (file.length / recordSize)) (initial file) as ↔
      StepsMeet next (ValidNumber (file.length / recordSize)) (initial file) as := by
  apply everyStep_iff_stepsMeet (I := AllRanged file.length) _ _ (initial_allRanged file) hrun
  · intro s a t hs hok hnext
    obtain ⟨i, hstep⟩ := next_step hnext
    exact allRanged_step hstep hs hok
  · intro s a t hs hnext
    obtain ⟨i, hstep⟩ := next_step hnext
    exact inRange_iff hstep hs

/-- A file with one record. -/
def oneRecord : File := Record.zero.bytes

/-- A client asks for record `1` and saves. -/
def savesBehindEnd : List (Action Unit) :=
  [.start () .zero .zero, .get () 1, .save (), .fcntl (), .transfer () .zero, .transfer () .zero]

theorem recordNumbers_iff_savesBehindEnd :
    (exec next (initial oneRecord) savesBehindEnd).isSome = true ∧
    ∀ t, exec next (initial oneRecord) savesBehindEnd = some t →
      (EveryStep next (InRange (oneRecord.length / recordSize)) (initial oneRecord)
          savesBehindEnd ↔
        StepsMeet next (ValidNumber (oneRecord.length / recordSize)) (initial oneRecord)
          savesBehindEnd) :=
  ⟨by decide +kernel, fun _ => recordNumbers_iff⟩

/-- The number is refused, but the save appends a record to the file. -/
theorem savesBehindEnd_not_inRange :
    ¬ EveryStep next (InRange (oneRecord.length / recordSize)) (initial oneRecord)
      savesBehindEnd := by
  intro h
  have hbefore : (exec next (initial oneRecord) (savesBehindEnd.take 5)).map
      (fun s => s.file.length) = some 161 := by
    decide +kernel
  have hafter : (exec next (initial oneRecord) savesBehindEnd).map
      (fun s => s.file.length) = some 322 := by
    decide +kernel
  obtain ⟨u, hu, hulen⟩ := Option.map_eq_some_iff.mp hbefore
  obtain ⟨v, hv, hvlen⟩ := Option.map_eq_some_iff.mp hafter
  have hlast : exec next (initial oneRecord)
      (savesBehindEnd.take 5 ++ [.transfer () .zero]) = some v := hv
  rw [exec_concat hu] at hlast
  have hsame := (h _ _ (List.prefix_refl _) u v hu hlast).1
  omega

end State

end OsispLabs.Lab7
