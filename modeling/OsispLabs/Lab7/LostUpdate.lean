import OsispLabs.Lab7.Editor

/-!
# No silent lost update

A write that was not confirmed at the prompt replaces what the writer had compared, and no other
client has written the record since the comparison: the writer's lock on the record lasts from
before the comparison to after the write.
-/
namespace OsispLabs.Lab7
open Lib

variable {I : Type*} [DecidableEq I]

/-- The content that a write replaces equals the writer's `oldRecord`; only a file that started
without a whole record may have none. -/
def Overwrites (file₀ : File) : Option Record → Record → Prop
  | some c, oldRecord => c.Same oldRecord
  | none, _ => file₀.length < recordSize

/-- Going back in the log to the last comparison of client `i`, which is one of record `k`, no
other client has written record `k`. -/
def Undisturbed (i : I) (k : ℤ) : List (Event I) → Prop
  | [] => False
  | .compared j m :: log => if j = i then m = k else Undisturbed i k log
  | .wrote j m _ _ _ :: log => (j = i ∨ m ≠ k) ∧ Undisturbed i k log

/-- Every write in the log that was not prompted replaces unchanged content, undisturbed since
its comparison. -/
def NoLostUpdate (file₀ : File) : List (Event I) → Prop
  | [] => True
  | .compared _ _ :: log => NoLostUpdate file₀ log
  | .wrote i k prompted before oldRecord :: log =>
    (prompted = false → Overwrites file₀ before oldRecord ∧ Undisturbed i k log) ∧
      NoLostUpdate file₀ log

/-- Every `g` command names a record that exists. -/
def NamesExisting (s : State I) : Action I → Prop
  | .get _ n => 0 ≤ n ∧ recordSize * (n.toNat + 1) ≤ s.file.length
  | _ => True

instance (s : State I) : (a : Action I) → Decidable (NamesExisting s a)
  | .get _ _ => inferInstanceAs (Decidable (_ ∧ _))
  | .start .. | .print _ | .rewrite .. | .save _ | .quit _ | .fcntl _ | .fail _ | .transfer .. |
    .answer .. => isTrue trivial

/-- In `saveRecord`, before the write is made. -/
def Pc.saves : Pc → Bool
  | .saving | .saveLocked | .prompting _ | .writing _ => true
  | .closed | .menu | .printing | .printLocked | .printed | .loading | .loadLocked | .loaded |
    .written => false

/-- In `saveRecord` with the write lock, before the write is made. -/
def Pc.owns : Pc → Bool
  | .saveLocked | .prompting _ | .writing _ => true
  | .closed | .menu | .printing | .printLocked | .printed | .loading | .loadLocked | .loaded |
    .saving | .written => false

theorem Pc.saves_of_owns {pc : Pc} (h : pc.owns = true) : pc.saves = true := by
  cases pc <;> first | rfl | exact h

/-- The current record is one of the file, or the first. -/
def Located (file : File) (c : Session) : Prop :=
  ∃ k : ℕ, c.currentRecord = k ∧ (k = 0 ∨ recordSize * (k + 1) ≤ file.length)

/-- What holds of client `i` with locks `m`: where it saves, it is at its record with the record
locked, and before an unprompted write the record is as it was compared. -/
structure Ready (file₀ file : File) (m : LockMap) (log : List (Event I)) (i : I) (c : Session) :
    Prop where
  located : Located file c
  aimed : c.pc = .saving ∨ c.pc = .saveLocked → c.offset = recordSize * c.currentRecord.toNat
  owned : c.pc.owns = true → ∀ b,
    (⟨recordSize * c.currentRecord.toNat, recordSize⟩ : ByteRange).Covers b → m.get b = .write
  compared : c.pc = .writing false →
    Overwrites file₀ (file.recordAt c.currentRecord) c.record ∧
      Undisturbed i c.currentRecord log

theorem located_of_exists {file : File} {c : Session}
    (h : 0 ≤ c.currentRecord ∧ recordSize * (c.currentRecord.toNat + 1) ≤ file.length) :
    Located file c :=
  ⟨c.currentRecord.toNat, (Int.toNat_of_nonneg h.1).symm, .inr h.2⟩

theorem Located.mono {file file' : File} {c : Session} (h : Located file c)
    (hle : file.length ≤ file'.length) : Located file' c := by
  obtain ⟨k, hk, hin⟩ := h
  exact ⟨k, hk, hin.imp_right fun h => Nat.le_trans h hle⟩

theorem seek_natCast (offset k : ℕ) : seek offset k = recordSize * k := by
  rw [seek, if_pos (Int.natCast_nonneg k), Int.toNat_natCast]

theorem Located.seek {file : File} {c : Session} (h : Located file c) (offset : ℕ) :
    seek offset c.currentRecord = recordSize * c.currentRecord.toNat := by
  obtain ⟨k, hk, _⟩ := h
  rw [hk, seek_natCast, Int.toNat_natCast]

/-- Without a record to read, the file has been too short from the start. -/
theorem Located.recordAt_none {file : File} {c : Session} (h : Located file c)
    (hnone : file.recordAt c.currentRecord = none) :
    c.currentRecord = 0 ∧ file.length < recordSize := by
  obtain ⟨k, hk, hin⟩ := h
  rw [hk, File.recordAt_natCast] at hnone
  have hnot : ¬ recordSize * (k + 1) ≤ file.length := by
    rw [← File.record?_isSome_iff, hnone]
    exact Bool.false_ne_true
  have hz : k = 0 := hin.resolve_right hnot
  subst hz
  exact ⟨hk, Nat.lt_of_not_le hnot⟩

theorem recordAt_writeAt_ne {file : File} {c d : Session} (hc : Located file c)
    (hd : Located file d) (hne : c.currentRecord ≠ d.currentRecord) (offset : ℕ) (r : Record) :
    (file.writeAt (seek offset d.currentRecord) r).recordAt c.currentRecord =
      file.recordAt c.currentRecord := by
  obtain ⟨k, hk, hkin⟩ := hc
  obtain ⟨m, hm, hmin⟩ := hd
  rw [hk, hm] at hne ⊢
  have hne : k ≠ m := fun h => hne (congrArg _ h)
  rw [File.recordAt_natCast, File.recordAt_natCast, seek_natCast]
  refine file.record?_writeAt_ne r hne ?_
  rcases hkin with rfl | hkin
  · have hm := hmin.resolve_left hne.symm
    exact Nat.le_trans (Nat.mul_le_mul_left _ (Nat.succ_le_succ (Nat.zero_le m))) hm
  · exact hkin

variable {file₀ : File}

theorem Ready.of_idle {file : File} {m : LockMap} {log : List (Event I)} {i : I} {c : Session}
    (hl : Located file c) (hpc : c.pc.saves = false) : Ready file₀ file m log i c where
  located := hl
  aimed h := by
    rcases h with h | h <;> rw [h] at hpc <;> cases hpc
  owned h := by
    rw [Pc.saves_of_owns h] at hpc
    cases hpc
  compared h := by
    rw [h] at hpc
    cases hpc

/-- A client that goes on inside `saveRecord` keeps its lock. -/
theorem Ready.stay {file : File} {m : LockMap} {log : List (Event I)} {i : I} {c d : Session}
    (hr : Ready file₀ file m log i c) (hcur : d.currentRecord = c.currentRecord)
    (hpc : c.pc.owns = true) (hd : d.pc ≠ .saving ∧ d.pc ≠ .saveLocked ∧ d.pc ≠ .writing false) :
    Ready file₀ file m log i d where
  located := by
    unfold Located
    rw [hcur]
    exact hr.located
  aimed h := (h.elim hd.1 hd.2.1).elim
  owned _ := by
    rw [hcur]
    exact hr.owned hpc
  compared h := (hd.2.2 h).elim

namespace State

/-- The invariant of all clients. -/
structure Guarded (file₀ : File) (s : State I) : Prop where
  excluded : Excluded s.locks
  grown : file₀.length ≤ s.file.length
  ready : ∀ i, Ready file₀ s.file (s.locks i) s.log i (s.session i)
  noLostUpdate : NoLostUpdate file₀ s.log

theorem initial_guarded (file₀ : File) : (initial file₀ : State I).Guarded file₀ where
  excluded := excluded_empty
  grown := Nat.le_refl _
  ready _ := .of_idle ⟨0, rfl, .inl rfl⟩ rfl
  noLostUpdate := trivial

variable [Fintype I] {s t : State I} {i j : I} {a : Action I}

omit [Fintype I] in
/-- Two clients that own their record have different ones. -/
theorem Guarded.record_ne (hs : s.Guarded file₀) (hne : i ≠ j)
    (hi : (s.session i).pc.owns = true) (hj : (s.session j).pc.owns = true) :
    (s.session i).currentRecord ≠ (s.session j).currentRecord := by
  intro he
  have hcover : (⟨recordSize * (s.session i).currentRecord.toNat, recordSize⟩ : ByteRange).Covers
      (recordSize * (s.session i).currentRecord.toNat) := ⟨Nat.le_refl _, .inr (by simp)⟩
  have hwi := (hs.ready i).owned hi _ hcover
  have hwj := (hs.ready j).owned hj (recordSize * (s.session i).currentRecord.toNat)
    (by rw [← he]; exact hcover)
  exact hne (hs.excluded.writer_unique hwi hwj)

omit [Fintype I] in
theorem Step.length_le (h : Step s i a t) : s.file.length ≤ t.file.length := by
  rcases h.shared with ⟨hf, _⟩ | ⟨hf, _⟩ | ⟨_, _, hf, _⟩ <;> rw [hf]
  exact File.length_le_writeAt _ _ _

omit [Fintype I] in
/-- A step of client `i` leaves every other client ready. -/
theorem Step.ready_other (h : Step s i a t) (hs : s.Guarded file₀) (hj : j ≠ i) :
    Ready file₀ t.file (t.locks j) t.log j (t.session j) := by
  have hr := hs.ready j
  have hlen := h.length_le
  rw [h.session_ne hj, h.locks_ne hj]
  refine ⟨hr.located.mono hlen, hr.aimed, hr.owned, fun hpc => ?_⟩
  obtain ⟨hover, hund⟩ := hr.compared hpc
  rcases h.shared with ⟨hf, hlog⟩ | ⟨hf, hlog⟩ | ⟨prompted, hwriting, hf, hlog⟩ <;> rw [hf, hlog]
  · exact ⟨hover, hund⟩
  · refine ⟨hover, ?_⟩
    rw [Undisturbed, if_neg (Ne.symm hj)]
    exact hund
  · have hne := hs.record_ne hj (by rw [hpc]; rfl) (by rw [hwriting]; rfl)
    rw [recordAt_writeAt_ne hr.located (hs.ready i).located hne]
    exact ⟨hover, .inr (Ne.symm hne), hund⟩

omit [Fintype I] in
theorem ready_compared (hs : s.Guarded file₀) (junk : Record)
    (hpc : (s.session i).pc = .saveLocked)
    (hsame : (junk.fill 0 (s.file.readAt (s.session i).offset)).Same (s.session i).record) :
    Overwrites file₀ (s.file.recordAt (s.session i).currentRecord) (s.session i).record := by
  have hr := hs.ready i
  cases hdisk : s.file.recordAt (s.session i).currentRecord with
  | none => exact Nat.lt_of_le_of_lt hs.grown (hr.located.recordAt_none hdisk).2
  | some c =>
    obtain ⟨k, hk, _⟩ := hr.located
    rw [hk, File.recordAt_natCast] at hdisk
    have hread := File.readAt_of_record? hdisk
    rw [hr.aimed (.inr hpc), hk, Int.toNat_natCast, hread, Record.fill_full _ c.size] at hsame
    exact hsame

omit [Fintype I] in
/-- A step of client `i` leaves the client itself ready. -/
theorem Step.ready_self (h : Step s i a t) (hs : s.Guarded file₀) (hg : NamesExisting s a) :
    Ready file₀ t.file (t.locks i) t.log i (t.session i) := by
  have hr := hs.ready i
  have hl := hr.located
  cases h with
  | start record newRecord hpc =>
    simp only [setSession_self]
    exact .of_idle ⟨0, rfl, .inl rfl⟩ rfl
  | getTooBig n hpc hbig =>
    simp only [setSession_self]
    exact .of_idle (located_of_exists hg) (by rw [hpc]; rfl)
  | get n hpc hlt =>
    simp only [setSession_self]
    exact .of_idle (located_of_exists hg) rfl
  | rewrite name address semester hpc =>
    simp only [setSession_self]
    exact .of_idle hl (by rw [hpc]; rfl)
  | save hpc =>
    simp only [setSession_self]
    exact ⟨hl, fun _ => hl.seek _, by simp [Pc.owns], by simp⟩
  | lockWrite hpc hgr =>
    simp only [goto_self]
    refine ⟨hl, fun _ => hr.aimed (.inl hpc), fun _ b hb => ?_, by simp⟩
    rw [get_setLock_self, hr.aimed (.inl hpc), if_pos hb]
  | compareSame junk hpc hsame =>
    simp only [setSession_self]
    refine ⟨hl, by simp, fun _ => hr.owned (by rw [hpc]; rfl), fun _ => ?_⟩
    refine ⟨ready_compared hs junk hpc hsame, ?_⟩
    rw [Undisturbed, if_pos rfl]
  | compareChanged junk hpc hdiff =>
    simp only [setSession_self]
    exact hr.stay rfl (by rw [hpc]; rfl) (by simp)
  | answerYes symbol tmpRecord hpc hyes =>
    simp only [goto_self]
    exact hr.stay rfl (by rw [hpc]; rfl) (by simp)
  | write junk prompted hpc =>
    simp only [setSession_self]
    exact .of_idle (hl.mono (File.length_le_writeAt _ _ _)) rfl
  | readAll junk hpc =>
    simp only [setSession_self]
    exact .of_idle hl rfl
  | load junk hpc =>
    simp only [setSession_self]
    exact .of_idle hl rfl
  | answerNo symbol tmpRecord hpc hno =>
    simp only [setSession_self]
    exact .of_idle hl rfl
  | print hpc =>
    simp only [goto_self]
    exact .of_idle hl rfl
  | quit hpc =>
    simp only [goto_self]
    exact .of_idle hl rfl
  | lockAll hpc hgr =>
    simp only [goto_self]
    exact .of_idle hl rfl
  | unlockAll hpc =>
    simp only [unlock_self]
    exact .of_idle hl rfl
  | lockRead hpc hgr =>
    simp only [goto_self]
    exact .of_idle hl rfl
  | unlockRead hpc hle =>
    simp only [unlock_self]
    exact .of_idle hl rfl
  | unlockWrite hpc =>
    simp only [unlock_self]
    exact .of_idle hl rfl
  | fail hpc =>
    simp only [goto_self]
    exact .of_idle hl rfl

omit [Fintype I] in
theorem Step.guarded (h : Step s i a t) (hs : s.Guarded file₀) (hg : NamesExisting s a) :
    t.Guarded file₀ where
  excluded := h.excluded hs.excluded
  grown := Nat.le_trans hs.grown h.length_le
  ready j := by
    by_cases hj : j = i
    · subst hj
      exact h.ready_self hs hg
    · exact h.ready_other hs hj
  noLostUpdate := by
    rcases h.shared with ⟨_, hlog⟩ | ⟨_, hlog⟩ | ⟨prompted, hpc, _, hlog⟩ <;> rw [hlog]
    · exact hs.noLostUpdate
    · exact hs.noLostUpdate
    · refine ⟨fun hp => ?_, hs.noLostUpdate⟩
      subst hp
      exact (hs.ready i).compared hpc

/-- In every interleaving of the clients, each unprompted write replaces content equal to the
writer's `oldRecord`, with no other client's write to the record since it was compared. -/
theorem run_noLostUpdate (file₀ : File) (as : List (Action I)) (s : State I)
    (hg : StepsMeet next NamesExisting (initial file₀) as)
    (hrun : exec next (initial file₀) as = some s) : NoLostUpdate file₀ s.log := by
  have hinv := exec_invariant_of_steps (I := fun s : State I => s.Guarded file₀)
    (fun s a t hs ha hnext => by
      obtain ⟨i, hstep⟩ := next_step hnext
      exact hstep.guarded hs ha)
    (initial_guarded file₀) hg hrun
  exact hinv.noLostUpdate

/-- Two clients load a record; the first saves its edit while the second waits for the lock. -/
def twoClients : List (Action (Fin 2)) :=
  [.start 0 .zero .zero, .get 0 0, .fcntl 0, .transfer 0 .zero, .fcntl 0,
    .start 1 .zero .zero, .get 1 0, .fcntl 1, .transfer 1 .zero, .fcntl 1,
    .rewrite 0 (some [65, 10]) (some [66, 10]) (some 3), .save 1, .save 0, .fcntl 0,
    .transfer 0 .zero, .transfer 0 .zero, .fcntl 0, .fcntl 1]

theorem run_noLostUpdate_twoClients :
    (exec next (initial Record.zero.bytes) twoClients).map (fun s => s.log.length) = some 2 ∧
      ∀ s, exec next (initial Record.zero.bytes) twoClients = some s →
        NoLostUpdate Record.zero.bytes s.log :=
  ⟨by decide +kernel, fun s => run_noLostUpdate Record.zero.bytes twoClients s (by decide +kernel)⟩

end State

end OsispLabs.Lab7
