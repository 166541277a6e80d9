import OsispLabs.Lab8.Descriptors

/-!
# Who owns a descriptor when it is closed

As long as no session makes the `close` after its command loop, every `close` hits the session's
own object and no connection is closed twice. That `close` follows the one of the `QUIT` case, so
its descriptor is no longer the session's.
-/
namespace OsispLabs.Lab8.Descriptors
open Lib

/-- How often connection `i` has been closed. -/
def closes (i : ℕ) (log : List Close) : ℕ := log.countP fun e => e.actual = some (.connection i)

namespace State

/-- Every `close` hit the object it meant, and a connection has been closed once or not at all,
according to whether its session is past its `close`. -/
structure Owned (s : State) : Prop where
  own : ∀ e ∈ s.log, e.actual = some e.intended
  once : ∀ (i : ℕ) (c : Session), s.sessions[i]? = some c →
    closes i s.log = if c.pc.connected then 0 else 1

/-- The step is not the `close` after the command loop. -/
def NotAfterLoop (s : State) : Action → Prop
  | .succeed i => s.sessions[i]?.map Session.pc ≠ some .ended
  | _ => True

instance (s : State) : (a : Action) → Decidable (s.NotAfterLoop a)
  | .succeed _ => inferInstanceAs (Decidable (_ ≠ _))
  | .accept | .acceptFails | .kill | .fail _ | .receive .. => isTrue trivial

/-- The invariant of runs without that step: each session's objects are where it has them. -/
structure Sound (s : State) : Prop where
  sockets : ∀ (i : ℕ) (c : Session), s.sessions[i]? = some c → c.pc.connected = true →
    s.table.lookup c.socket = some (.connection i)
  files : ∀ (i : ℕ) (c : Session) (fd : ℕ) (o : Owner), s.sessions[i]? = some c →
    c.pc.holds i = some (fd, o) → s.table.lookup fd = some o
  owned : s.Owned
  unborn : ∀ i, s.sessions.length ≤ i → closes i s.log = 0

/-- In every run, a connection that is open is the socket of a session that has not closed it. -/
def Placed (s : State) : Prop :=
  ∀ i fd, s.table.lookup fd = some (.connection i) →
    ∃ c, s.sessions[i]? = some c ∧ c.socket = fd ∧ c.pc.connected = true

/-- Some `close` hit an object of somebody else, or none. -/
def Astray (s : State) : Prop := ∃ e ∈ s.log, e.actual ≠ some e.intended

theorem Owned.not_astray {s : State} (h : s.Owned) : ¬ s.Astray := fun ⟨e, he, hne⟩ =>
  hne (h.own e he)

variable {s t : State} {a : Action} {i j : ℕ} {c d : Session}

theorem goto_length (s : State) (i : ℕ) (c : Session) (pc : Pc) :
    (s.goto i c pc).sessions.length = s.sessions.length := List.length_set

section Placed

theorem start_placed : start.Placed := by
  intro i fd h
  match fd with
  | 0 | 1 | 2 | 3 => cases h
  | fd + 4 => cases h

theorem Placed.goto (hs : s.Placed) (hc : s.sessions[i]? = some c) {pc : Pc}
    (hpc : c.pc.connected = true → pc.connected = true) : (s.goto i c pc).Placed := by
  intro j fd hfd
  obtain ⟨d, hd, hsock, hcon⟩ := hs j fd hfd
  by_cases hij : i = j
  · subst hij
    obtain rfl := Option.some.inj (hc.symm.trans hd)
    exact ⟨_, goto_self hc pc, hsock, hpc hcon⟩
  · exact ⟨d, (goto_ne hij c pc).trans hd, hsock, hcon⟩

theorem Placed.acquire (hs : s.Placed) (hc : s.sessions[i]? = some c) {o : Owner} {pc : ℕ → Pc}
    (ho : ∀ k, o ≠ .connection k) (hpc : ∀ fd, (pc fd).connected = true) :
    (s.acquire i c o pc).Placed := by
  intro j fd hfd
  have hold : s.table.lookup fd = some (.connection j) := by
    change (s.table.opened o).lookup fd = _ at hfd
    rw [Table.lookup_opened] at hfd
    split at hfd
    · exact absurd (Option.some.inj hfd) (ho j)
    · exact hfd
  have hgoto : (s.goto i c (pc s.table.lowest)).Placed := hs.goto hc fun _ => hpc _
  exact hgoto j fd hold

theorem lookup_of_closed {fd fd' : ℕ} {o : Owner} (h : (s.table.closed fd).lookup fd' = some o) :
    fd' ≠ fd ∧ s.table.lookup fd' = some o := by
  rw [Table.lookup_closed] at h
  split at h
  · cases h
  · exact ⟨‹_›, h⟩

theorem Placed.release (hs : s.Placed) (hc : s.sessions[i]? = some c) {fd : ℕ} {o : Owner}
    {pc : Pc} (hpc : pc.connected = true ∨ fd = c.socket) : (s.release i c fd o pc).Placed := by
  intro j fd' hfd'
  obtain ⟨hne, hold⟩ := lookup_of_closed hfd'
  obtain ⟨d, hd, hsock, hcon⟩ := hs j fd' hold
  by_cases hij : i = j
  · subst hij
    obtain rfl := Option.some.inj (hc.symm.trans hd)
    refine ⟨_, goto_self hc pc, hsock, hpc.resolve_right fun h => hne ?_⟩
    rw [← hsock, h]
  · exact ⟨d, (goto_ne hij c pc).trans hd, hsock, hcon⟩

theorem Step.placed (h : Step s a t) (hs : s.Placed) : t.Placed := by
  cases h with
  | accept =>
    intro j fd hfd
    change (s.table.opened _).lookup fd = _ at hfd
    rw [Table.lookup_opened] at hfd
    split at hfd
    · obtain rfl := Owner.connection.inj (Option.some.inj hfd)
      exact ⟨_, List.getElem?_concat_length, Eq.symm ‹_›, rfl⟩
    · obtain ⟨d, hd, hrest⟩ := hs j fd hfd
      have hlt : j < s.sessions.length := (List.getElem?_eq_some_iff.mp hd).1
      exact ⟨d, (List.getElem?_append_left hlt).trans hd, hrest⟩
  | halt => exact hs
  | move _ i c pc hc hmove hnot => exact hs.goto hc fun h => hmove.connected.trans h
  | openInfo i c hc hpc => exact hs.acquire hc nofun fun _ => rfl
  | closeInfo i c file hc hpc => exact hs.release hc (.inl rfl)
  | openDir i c hc hpc => exact hs.acquire hc nofun fun _ => rfl
  | closeDir i c dir hc hpc => exact hs.release hc (.inl rfl)
  | closeSocket i c pc hc hpc => exact hs.release hc (.inr rfl)

end Placed

section Astray

theorem Step.log_suffix (h : Step s a t) : s.log <:+ t.log := by
  cases h with
  | closeInfo i c file hc hpc => exact List.suffix_cons _ _
  | closeDir i c dir hc hpc => exact List.suffix_cons _ _
  | closeSocket i c pc hc hpc => exact List.suffix_cons _ _
  | _ => exact List.suffix_refl _

theorem Step.astray (h : Step s a t) (hs : s.Astray) : t.Astray := by
  obtain ⟨e, he, hne⟩ := hs
  exact ⟨e, h.log_suffix.subset he, hne⟩

/-- The `close` after the loop never hits the session's own connection. -/
theorem next_astray (hs : s.Placed) (hnot : ¬ s.NotAfterLoop a) (hnext : s.next a = some t) :
    t.Astray := by
  cases a with
  | succeed i =>
    obtain ⟨c, hc, hpc⟩ := Option.map_eq_some_iff.mp (not_not.mp hnot)
    have hnext' : s.next (.succeed i) =
        if s.running then some (s.release i c c.socket (.connection i) .finished) else none := by
      simp only [next, hc, Option.bind_some, succeed, hpc]
    rw [hnext'] at hnext
    split at hnext
    · cases hnext
      refine ⟨_, List.mem_cons_self, fun hown => ?_⟩
      obtain ⟨d, hd, _, hcon⟩ := hs i c.socket hown
      obtain rfl := Option.some.inj (hc.symm.trans hd)
      rw [hpc] at hcon
      cases hcon
    · cases hnext
  | accept => exact absurd trivial hnot
  | acceptFails | kill => exact absurd trivial hnot
  | fail i => exact absurd trivial hnot
  | receive i message => exact absurd trivial hnot

end Astray

section Sound

theorem start_sound : start.Sound where
  sockets _ _ h := nomatch h
  files _ _ _ _ h := nomatch h
  owned := ⟨(fun _ h => nomatch h), fun _ _ h => nomatch h⟩
  unborn _ _ := rfl

theorem closes_cons (i : ℕ) (e : Close) (log : List Close) :
    closes i (e :: log) = closes i log + if e.actual = some (.connection i) then 1 else 0 := by
  simp only [closes, List.countP_cons, decide_eq_true_eq]

theorem Sound.goto (hs : s.Sound) (hc : s.sessions[i]? = some c) {pc : Pc}
    (hmove : c.pc.Moves pc) : (s.goto i c pc).Sound where
  sockets j d hd hcon := by
    rcases goto_cases hc hd with ⟨rfl, rfl⟩ | ⟨_, hd⟩
    · exact hs.sockets i c hc (hmove.connected.symm.trans hcon)
    · exact hs.sockets j d hd hcon
  files j d fd o hd hfd := by
    rcases goto_cases hc hd with ⟨rfl, rfl⟩ | ⟨_, hd⟩
    · rw [hmove.holds i] at hfd
      cases hfd
    · exact hs.files j d fd o hd hfd
  owned := by
    refine ⟨hs.owned.own, fun j d hd => ?_⟩
    rcases goto_cases hc hd with ⟨rfl, rfl⟩ | ⟨_, hd⟩
    · rw [hmove.connected]
      exact hs.owned.once i c hc
    · exact hs.owned.once j d hd
  unborn j hj := hs.unborn j (by rwa [goto_length] at hj)

theorem Sound.acquire (hs : s.Sound) (hc : s.sessions[i]? = some c) {o : Owner} {pc : ℕ → Pc}
    (hcon : c.pc.connected = true) (hpc : ∀ fd, (pc fd).connected = true)
    (hholds : ∀ fd, (pc fd).holds i = some (fd, o)) : (s.acquire i c o pc).Sound where
  sockets j d hd hdcon := by
    refine Table.lookup_opened_of_some ?_
    rcases goto_cases hc hd with ⟨rfl, rfl⟩ | ⟨_, hd⟩
    · exact hs.sockets i c hc hcon
    · exact hs.sockets j d hd hdcon
  files j d fd o' hd hfd := by
    change (s.table.opened o).lookup fd = _
    rcases goto_cases hc hd with ⟨rfl, rfl⟩ | ⟨_, hd⟩
    · rw [hholds] at hfd
      cases hfd
      rw [Table.lookup_opened, if_pos rfl]
    · exact Table.lookup_opened_of_some (hs.files j d fd o' hd hfd)
  owned := by
    refine ⟨hs.owned.own, fun j d hd => ?_⟩
    rcases goto_cases hc hd with ⟨rfl, rfl⟩ | ⟨_, hd⟩
    · have hone := hs.owned.once i c hc
      rw [hcon] at hone
      rw [hpc]
      exact hone
    · exact hs.owned.once j d hd
  unborn j hj := hs.unborn j (by rwa [State.acquire, goto_length] at hj)

/-- Objects of different owners have different descriptors. -/
theorem lookup_closed_other {fd fd' : ℕ} {o o' : Owner} (h : s.table.lookup fd = some o)
    (h' : s.table.lookup fd' = some o') (hne : o' ≠ o) :
    (s.table.closed fd).lookup fd' = some o' := by
  rw [Table.lookup_closed_of_ne, h']
  rintro rfl
  exact hne (Option.some.inj (h'.symm.trans h))

theorem holds_owner {pc : Pc} {fd : ℕ} {o : Owner} (h : pc.holds i = some (fd, o)) :
    o = .infoFile i ∨ o = .directory i := by
  cases pc with
  | reading file =>
    cases h
    exact .inl rfl
  | listing dir =>
    cases h
    exact .inr rfl
  | _ => cases h

/-- Closing a descriptor of the object it was opened for. -/
theorem Owned.own_release (hs : Owned s) {fd : ℕ} {o : Owner} (hfd : s.table.lookup fd = some o)
    {pc : Pc} : ∀ e ∈ (s.release i c fd o pc).log, e.actual = some e.intended := by
  intro e he
  rcases List.mem_cons.mp he with rfl | he
  · exact hfd
  · exact hs.own e he

/-- Closing a file or directory of the session itself. -/
theorem Sound.closeFile (hs : s.Sound) (hc : s.sessions[i]? = some c) {fd : ℕ} {o : Owner}
    (hholds : c.pc.holds i = some (fd, o)) (hcon : c.pc.connected = true) :
    (s.release i c fd o .sending).Sound := by
  have hfd := hs.files i c fd o hc hholds
  have hcount : ∀ j, closes j (s.release i c fd o .sending).log = closes j s.log := by
    intro j
    change closes j (_ :: s.log) = _
    rw [closes_cons, if_neg, Nat.add_zero]
    intro he
    have ho := Option.some.inj (hfd.symm.trans he)
    rcases holds_owner hholds with h | h <;> rw [h] at ho <;> cases ho
  have hother : ∀ j, o ≠ .connection j := by
    rintro j rfl
    rcases holds_owner hholds with h | h <;> cases h
  constructor
  · intro j d hd hdcon
    refine lookup_closed_other hfd ?_ (Ne.symm (hother j))
    rcases goto_cases hc hd with ⟨rfl, rfl⟩ | ⟨_, hd⟩
    · exact hs.sockets i c hc hcon
    · exact hs.sockets j d hd hdcon
  · intro j d fd' o' hd hfd'
    rcases goto_cases hc hd with ⟨rfl, rfl⟩ | ⟨hij, hd⟩
    · cases hfd'
    · refine lookup_closed_other hfd (hs.files j d fd' o' hd hfd') ?_
      rintro rfl
      rcases holds_owner hholds with h | h <;> rcases holds_owner hfd' with h' | h' <;>
        rw [h] at h' <;> cases h' <;> exact hij rfl
  · refine ⟨hs.owned.own_release hfd, fun j d hd => ?_⟩
    rw [hcount]
    rcases goto_cases hc hd with ⟨rfl, rfl⟩ | ⟨_, hd⟩
    · have hone := hs.owned.once i c hc
      rwa [hcon] at hone
    · exact hs.owned.once j d hd
  · intro j hj
    rw [hcount]
    exact hs.unborn j (by rwa [release, goto_length] at hj)

/-- Closing the connection of the session itself, for the first time. -/
theorem Sound.closeSocket (hs : s.Sound) (hc : s.sessions[i]? = some c)
    (hcon : c.pc.connected = true) {pc : Pc} (hpc : pc.connected = false)
    (hnone : ∀ j, pc.holds j = none) :
    (s.release i c c.socket (.connection i) pc).Sound := by
  have hfd := hs.sockets i c hc hcon
  have hcount : ∀ j, closes j (s.release i c c.socket (.connection i) pc).log =
      closes j s.log + if i = j then 1 else 0 := by
    intro j
    change closes j (_ :: s.log) = _
    rw [closes_cons, hfd]
    simp only [Option.some.injEq, Owner.connection.injEq]
  constructor
  · intro j d hd hdcon
    rcases goto_cases hc hd with ⟨rfl, rfl⟩ | ⟨hij, hd⟩
    · rw [hpc] at hdcon
      cases hdcon
    · refine lookup_closed_other hfd (hs.sockets j d hd hdcon) fun h => hij ?_
      exact (Owner.connection.inj h).symm
  · intro j d fd' o' hd hfd'
    rcases goto_cases hc hd with ⟨rfl, rfl⟩ | ⟨_, hd⟩
    · rw [hnone] at hfd'
      cases hfd'
    · refine lookup_closed_other hfd (hs.files j d fd' o' hd hfd') ?_
      rcases holds_owner hfd' with h | h <;> rw [h] <;> nofun
  · refine ⟨hs.owned.own_release hfd, fun j d hd => ?_⟩
    rw [hcount]
    rcases goto_cases hc hd with ⟨rfl, rfl⟩ | ⟨hij, hd⟩
    · have hone := hs.owned.once i c hc
      rw [hcon] at hone
      rw [if_pos rfl, hone, hpc]
      rfl
    · rw [if_neg hij, Nat.add_zero]
      exact hs.owned.once j d hd
  · intro j hj
    have hlt : i < s.sessions.length := (List.getElem?_eq_some_iff.mp hc).1
    rw [release, goto_length] at hj
    rw [hcount, if_neg (by omega), Nat.add_zero]
    exact hs.unborn j hj

theorem Sound.accept (hs : s.Sound) :
    ({ s with
        table := s.table.opened (.connection s.sessions.length)
        sessions := s.sessions ++ [⟨s.table.lowest, .opening⟩] } : State).Sound := by
  have hcases : ∀ j d, (s.sessions ++ [⟨s.table.lowest, .opening⟩])[j]? = some d →
      (j = s.sessions.length ∧ d = ⟨s.table.lowest, .opening⟩) ∨ s.sessions[j]? = some d := by
    intro j d hd
    rcases Nat.lt_trichotomy j s.sessions.length with hlt | rfl | hgt
    · rw [List.getElem?_append_left hlt] at hd
      exact .inr hd
    · rw [List.getElem?_concat_length] at hd
      exact .inl ⟨rfl, (Option.some.inj hd).symm⟩
    · rw [List.getElem?_eq_none (by simp; omega)] at hd
      cases hd
  constructor
  · intro j d hd hdcon
    rcases hcases j d hd with ⟨rfl, rfl⟩ | hd
    · rw [Table.lookup_opened, if_pos rfl]
    · exact Table.lookup_opened_of_some (hs.sockets j d hd hdcon)
  · intro j d fd o hd hfd
    rcases hcases j d hd with ⟨rfl, rfl⟩ | hd
    · cases hfd
    · exact Table.lookup_opened_of_some (hs.files j d fd o hd hfd)
  · refine ⟨hs.owned.own, fun j d hd => ?_⟩
    rcases hcases j d hd with ⟨rfl, rfl⟩ | hd
    · exact hs.unborn _ (Nat.le_refl _)
    · exact hs.owned.once j d hd
  · intro j hj
    refine hs.unborn j ?_
    simp only [List.length_append, List.length_singleton] at hj
    omega

theorem Pc.Closes.first {pc pc' : Pc} (h : pc.Closes pc') (hne : pc ≠ .ended) :
    pc.connected = true ∧ pc'.connected = false ∧ ∀ j, pc'.holds j = none := by
  cases h with
  | quit => exact ⟨rfl, rfl, fun _ => rfl⟩
  | afterLoop => exact absurd rfl hne
  | failure => exact ⟨rfl, rfl, fun _ => rfl⟩

theorem Step.sound (h : Step s a t) (hs : s.Sound) (hok : s.NotAfterLoop a) : t.Sound := by
  cases h with
  | accept => exact hs.accept
  | halt => exact ⟨hs.sockets, hs.files, ⟨hs.owned.own, hs.owned.once⟩, hs.unborn⟩
  | move _ i c pc hc hmove hnot => exact hs.goto hc hmove
  | openInfo i c hc hpc =>
    exact hs.acquire hc (by rw [hpc]; rfl) (fun _ => rfl) fun _ => rfl
  | closeInfo i c file hc hpc =>
    exact hs.closeFile hc (by rw [hpc]; rfl) (by rw [hpc]; rfl)
  | openDir i c hc hpc =>
    exact hs.acquire hc (by rw [hpc]; rfl) (fun _ => rfl) fun _ => rfl
  | closeDir i c dir hc hpc =>
    exact hs.closeFile hc (by rw [hpc]; rfl) (by rw [hpc]; rfl)
  | closeSocket i c pc hc hpc =>
    have hnot : c.pc ≠ .ended := fun he => hok (by rw [hc, Option.map_some, he])
    obtain ⟨hcon, hclosed, hnone⟩ := Pc.Closes.first hpc hnot
    exact hs.closeSocket hc hcon hclosed hnone

end Sound

/-- A descriptor that is closed once more is astray for ever. -/
theorem owned_decides :
    Decides next (fun _ _ => True) NotAfterLoop Placed Sound Astray Owned where
  step hs _ h := (next_step h).placed hs
  keep _ hsound _ hok h := (next_step h).sound hsound hok
  spoil hs _ hnot h := next_astray hs hnot h
  last _ _ hbad h := (next_step h).astray hbad
  good _ hsound := hsound.owned
  bad _ hbad hown := hown.not_astray hbad

/-- In every interleaving of `accept` and the sessions, each `close` hits the session's own
object and each connection is closed once, exactly when no session makes the `close` after its
command loop. -/
theorem run_owned_iff (as : List Action) (s : State) (hrun : exec next start as = some s) :
    s.Owned ↔ StepsMeet next NotAfterLoop start as :=
  owned_decides.iff_stepsMeet_of_all start_placed start_sound hrun

/-- Two clients; the first one disconnects while the second lists its directory. -/
theorem run_owned_iff_disconnect :
    ∃ s, exec next start [.accept, .succeed 0, .succeed 0, .succeed 0, .accept, .succeed 1,
      .succeed 1, .succeed 1, .receive 1 "list".toList, .succeed 1, .fail 0, .succeed 0] = some s ∧
      (s.Owned ↔ StepsMeet next NotAfterLoop start [.accept, .succeed 0, .succeed 0, .succeed 0,
        .accept, .succeed 1, .succeed 1, .succeed 1, .receive 1 "list".toList, .succeed 1,
        .fail 0, .succeed 0]) :=
  ⟨_, rfl, run_owned_iff _ _ rfl⟩

/-- A client quits, the next one gets its descriptor, and the second `close` hits that one. -/
theorem quit_closes_other_client :
    ¬ ∀ (as : List Action) (s : State), exec next start as = some s → s.Owned := by
  intro hall
  have h := hall [.accept, .succeed 0, .succeed 0, .succeed 0, .receive 0 "quit".toList,
    .succeed 0, .succeed 0, .accept, .succeed 0] _ rfl
  exact absurd (h.own _ List.mem_cons_self) (by decide)

end State

end OsispLabs.Lab8.Descriptors
