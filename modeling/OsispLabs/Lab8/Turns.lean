import OsispLabs.Lab8.Lockstep
import OsispLabs.Lib.Refinement

/-!
# Client and server take turns

The server goes on sending the lines of a listing while the client reads the first ones. In a
harmless run this makes no difference: its steps can be put into turns, in each of which the client
sends a command, the server does all that it does for it, and then the client reads the reply.
-/
namespace OsispLabs.Lab8
open Lib

variable {D : Type*} {fs : FileSystem D}

/-- The client's own steps come first in a turn, then the server's, then the client's reads. -/
def Action.rank : Action D → ℕ
  | .connect _ | .typed .. | .fileLine _ => 0
  | .greet .. | .serve .. | .proceed _ => 1
  | .read => 2
  | .hangUp => 3

namespace Exchange

/-- The steps of one turn in their order, with at most one step of the client of its own. -/
def InOrder (b : List (Action D)) : Prop :=
  b.Pairwise fun a a' => a.rank ≤ a'.rank ∧ 0 < a'.rank

/-- Nothing is under way, and the client is about to be greeted or to send. -/
def Resting (s : Exchange D) : Prop :=
  s.Quiet ∧
    match s.mode with
    | .greeting => s.greeted = false
    | .connecting | .prompt | .file _ => True
    | .reply _ | .listing | .stopped => False

/-- One turn after the other, each from a state where nothing is under way. -/
inductive Turns (fs : FileSystem D) : Exchange D → List (List (Action D)) → Exchange D → Prop
  | done (s : Exchange D) : Turns fs s [] s
  | turn {s t u : Exchange D} {b : List (Action D)} {bs : List (List (Action D))}
      (hrest : s.Resting) (horder : InOrder b) (hrun : exec (next fs) s b = some t)
      (hturns : Turns fs t bs u) : Turns fs s (b :: bs) u

variable {s t u v : Exchange D} {a : Action D} {b : List (Action D)} {bs : List (List (Action D))}

theorem Turns.snoc (h : Turns fs s bs v) (hrest : v.Resting) (horder : InOrder b)
    (hrun : exec (next fs) v b = some t) : Turns fs s (bs ++ [b]) t := by
  induction h with
  | done s => exact .turn hrest horder hrun (.done t)
  | turn hrest' horder' hrun' _ ih => exact .turn hrest' horder' hrun' (ih hrest hrun)

section Swap

/-- A read takes the first frame, and does not look at the server. -/
theorem read_append (h : s.read = some u) (session : Option (Session D)) (greeted : Bool)
    (answers : List (List Frame)) (toServer : List (List Char)) (frames : List Frame) :
    read { s with
        session := session
        greeted := greeted
        answers := answers
        toServer := toServer
        toClient := s.toClient ++ frames } =
      some { u with
        session := session
        greeted := greeted
        answers := answers
        toServer := toServer
        toClient := u.toClient ++ frames } := by
  unfold read at h ⊢
  cases hclient : s.toClient with
  | nil =>
    rw [hclient] at h
    cases h
  | cons f rest =>
    rw [hclient] at h
    simp only [List.cons_append] at h ⊢
    cases hmode : s.mode with
    | greeting | reply after =>
      rw [hmode] at h
      obtain rfl := Option.some.inj h
      rfl
    | listing =>
      rw [hmode] at h
      obtain rfl := Option.some.inj h
      simp only
      split <;> rfl
    | connecting | prompt | file lines | stopped =>
      rw [hmode] at h
      cases h

theorem read_server (h : s.read = some u) :
    u.session = s.session ∧ u.greeted = s.greeted ∧ u.answers = s.answers ∧
      u.toServer = s.toServer := by
  unfold read at h
  cases hclient : s.toClient with
  | nil =>
    rw [hclient] at h
    cases h
  | cons f rest =>
    rw [hclient] at h
    cases hmode : s.mode with
    | greeting | reply after =>
      simp only [hmode] at h
      obtain rfl := Option.some.inj h
      exact ⟨rfl, rfl, rfl, rfl⟩
    | listing =>
      simp only [hmode] at h
      obtain rfl := Option.some.inj h
      split <;> exact ⟨rfl, rfl, rfl, rfl⟩
    | connecting | prompt | file lines | stopped =>
      simp only [hmode] at h
      cases h

/-- The server may make its step before the client reads. -/
theorem server_before_read (ha : a.rank = 1) (hread : s.next fs .read = some u)
    (h : u.next fs a = some t) : ∃ v, s.next fs a = some v ∧ v.next fs .read = some t := by
  obtain ⟨session, greeted, answers, toServer, toClient, mode, got, shown⟩ := s
  obtain ⟨session', greeted', answers', toServer', toClient', mode', got', shown'⟩ := u
  obtain ⟨rfl, rfl, rfl, rfl⟩ := read_server hread
  cases a with
  | greet info timestamp =>
    obtain ⟨c, rfl, h⟩ := Option.bind_eq_some_iff.mp h
    split at h
    · cases h
    · rename_i hnot
      obtain rfl := Option.some.inj h
      exact ⟨_, if_neg hnot, read_append hread _ _ _ _ _⟩
  | serve cwd info junk timestamp =>
    obtain ⟨c, rfl, h⟩ := Option.bind_eq_some_iff.mp h
    split at h
    · rename_i hidle
      cases toServer' with
      | nil => cases h
      | cons command rest =>
        obtain rfl := Option.some.inj h
        exact ⟨_, if_pos hidle, read_append hread _ _ _ _ _⟩
    · cases h
  | proceed cwd =>
    obtain ⟨c, rfl, h⟩ := Option.bind_eq_some_iff.mp h
    obtain ⟨c', hc', rfl⟩ := Option.map_eq_some_iff.mp h
    exact ⟨_, Option.map_eq_some_iff.mpr ⟨c', hc', rfl⟩, read_append hread _ _ _ _ _⟩
  | connect timestamp | typed line lines timestamp | fileLine timestamp | read | hangUp => cases ha

end Swap

section Rest

theorem InStep.resting (hs : s.InStep)
    (hmode : s.mode = .connecting ∨ s.mode = .prompt ∨ ∃ lines, s.mode = .file lines) :
    s.Resting := by
  unfold InStep at hs
  rcases hmode with hmode | hmode | ⟨lines, hmode⟩
  all_goals
    rw [hmode] at hs
    rw [Resting, hmode]
    exact ⟨hs.2, trivial⟩

/-- A step of the client of its own is made at rest. -/
theorem InStep.resting_of_rank (hs : s.InStep) (ha : a.rank = 0) (h : s.next fs a = some t) :
    s.Resting := by
  cases a with
  | connect timestamp =>
    simp only [next, Option.ite_none_right_eq_some] at h
    exact hs.resting (.inl h.1)
  | typed line lines timestamp =>
    simp only [next, Option.ite_none_right_eq_some] at h
    exact hs.resting (.inr (.inl h.1.1))
  | fileLine timestamp =>
    simp only [next] at h
    split at h
    · exact hs.resting (.inr (.inr ⟨_, ‹_›⟩))
    · exact hs.resting (.inr (.inr ⟨_, ‹_›⟩))
    · cases h
  | greet info timestamp | serve cwd info junk timestamp | proceed cwd | read | hangUp => cases ha

/-- When the client has ended, so has the exchange. -/
theorem InStep.next_stopped (hs : s.InStep) (hmode : s.mode = .stopped) (a : Action D) :
    s.next fs a = none := by
  unfold InStep at hs
  rw [hmode] at hs
  obtain ⟨-, hended⟩ := hs
  cases a with
  | greet info timestamp =>
    rcases hended with hnone | ⟨hgreeted, -, -⟩
    · simp [next, hnone]
    · cases hsession : s.session <;> simp [next, hsession, hgreeted]
  | serve cwd info junk timestamp =>
    rcases hended with hnone | ⟨-, -, hto⟩
    · simp [next, hnone]
    · cases hsession : s.session <;> simp [next, hsession, hto]
  | proceed cwd =>
    rcases hended with hnone | ⟨-, hidle, -⟩
    · simp [next, hnone]
    · cases hsession : s.session with
      | none => simp [next, hsession]
      | some c => simp [next, hsession, Session.proceed, hidle c hsession]
  | connect timestamp | typed line lines timestamp | fileLine timestamp => simp [next, hmode]
  | read =>
    rw [next, read, hmode]
    cases s.toClient <;> rfl
  | hangUp => simp [next, hmode, Mode.reads]

end Rest

section Turns

/-- The client's reads of a turn. -/
def reads (k : ℕ) : List (Action D) := List.replicate k .read

/-- The steps so far in turns, the last of which may be under way: the client's own step and the
server's steps, and then `k` reads. -/
structure InTurns (fs : FileSystem D) (start : Exchange D) (as : List (Action D)) (s : Exchange D)
    (bs : List (List (Action D))) (v : Exchange D) (front : List (Action D)) (k : ℕ) : Prop where
  perm : (bs.flatten ++ (front ++ reads k)).Perm as
  turns : Turns fs start bs v
  rest : v.Resting
  order : InOrder front
  front_rank : ∀ a ∈ front, a.rank ≤ 1
  run : exec (next fs) v (front ++ reads k) = some s

/-- The steps so far can be put into turns; at rest none is under way, and the end of the client is
the end of the last. -/
def Sequential (fs : FileSystem D) (start : Exchange D) (as : List (Action D)) (s : Exchange D) :
    Prop :=
  (∃ bs v front k, InTurns fs start as s bs v front k ∧ (s.Resting → front = [] ∧ k = 0)) ∨
    (s.mode = .stopped ∧ ∃ bs, bs.flatten.Perm as ∧ Turns fs start bs s)

variable {start : Exchange D} {as : List (Action D)} {front : List (Action D)} {k : ℕ}

theorem inOrder_front (horder : InOrder front) (hrank : ∀ a ∈ front, a.rank ≤ 1)
    {late : List (Action D)} (hlate : InOrder late) (hlate_rank : ∀ a ∈ late, 2 ≤ a.rank) :
    InOrder (front ++ late) := by
  refine List.pairwise_append.mpr ⟨horder, hlate, fun a ha b hb => ?_⟩
  have hle := hrank a ha
  have hge := hlate_rank b hb
  omega

theorem eq_of_mem_reads (ha : a ∈ reads k) : a = .read := List.eq_of_mem_replicate ha

theorem reads_succ (k : ℕ) : (reads (k + 1) : List (Action D)) = reads k ++ [.read] :=
  List.replicate_succ'

theorem inOrder_reads (k : ℕ) : InOrder (reads k : List (Action D)) :=
  List.pairwise_replicate.mpr (.inr ⟨Nat.le_refl _, Nat.two_pos⟩)

theorem InTurns.inOrder (h : InTurns fs start as s bs v front k) :
    InOrder (front ++ reads k) :=
  inOrder_front h.order h.front_rank (inOrder_reads k) fun a ha => by
    rw [eq_of_mem_reads ha]
    exact Nat.le_refl _

/-- A turn is over as soon as nothing is under way. -/
theorem InTurns.sequential (h : InTurns fs start as s bs v front k) :
    Sequential fs start as s := by
  by_cases hrest : s.Resting
  · refine .inl ⟨bs ++ [front ++ reads k], s, [], 0, ?_, fun _ => ⟨rfl, rfl⟩⟩
    exact
      { perm := by simpa [reads] using h.perm
        turns := h.turns.snoc h.rest h.inOrder h.run
        rest := hrest
        order := List.Pairwise.nil
        front_rank := nofun
        run := rfl }
  · exact .inl ⟨bs, v, front, k, h, fun hr => absurd hr hrest⟩

theorem InTurns.closed (h : InTurns fs start as s bs v front k) :
    ∃ bs, bs.flatten.Perm as ∧ Turns fs start bs s :=
  ⟨bs ++ [front ++ reads k], by simpa using h.perm,
    h.turns.snoc h.rest h.inOrder h.run⟩

/-- The client starts a turn with a step of its own. -/
theorem InTurns.sends (h : InTurns fs start as s bs v [] 0) (ha : a.rank = 0)
    (hnext : s.next fs a = some t) : InTurns fs start (as ++ [a]) t bs v [a] 0 where
  perm := by
    have hperm : (bs.flatten ++ []).Perm as := h.perm
    rw [List.append_nil] at hperm
    exact hperm.append_right [a]
  turns := h.turns
  rest := h.rest
  order := List.pairwise_singleton _ _
  front_rank := by simp [ha]
  run := by
    obtain rfl : v = s := Option.some.inj h.run
    exact (exec_single a).trans hnext

/-- The server makes its step before the reads of the turn. -/
theorem InTurns.server (h : InTurns fs start as s bs v front k) (ha : a.rank = 1)
    (hnext : s.next fs a = some t) : InTurns fs start (as ++ [a]) t bs v (front ++ [a]) k where
  perm := by
    have hswap : (front ++ [a] ++ reads k).Perm
        (front ++ reads k ++ [a]) := by
      rw [List.append_assoc, List.append_assoc]
      exact List.perm_append_comm.append_left front
    refine (hswap.append_left bs.flatten).trans ?_
    rw [← List.append_assoc]
    exact h.perm.append_right [a]
  turns := h.turns
  rest := h.rest
  order := by
    refine List.pairwise_append.mpr ⟨h.order, List.pairwise_singleton _ _, fun b hb c hc => ?_⟩
    have hle := h.front_rank b hb
    rw [List.mem_singleton.mp hc, ha]
    exact ⟨hle, Nat.one_pos⟩
  front_rank b hb := by
    rcases List.mem_append.mp hb with hb | hb
    · exact h.front_rank b hb
    · exact Nat.le_of_eq (by rw [List.mem_singleton.mp hb, ha])
  run := by
    have hrun := h.run
    rw [exec_append] at hrun
    obtain ⟨w, hw, hreads⟩ := Option.bind_eq_some_iff.mp hrun
    have hlast : exec (next fs) w (reads k ++ [a]) = some t := by
      rw [exec_concat hreads, hnext]
    have hfirst := exec_overtake (· = .read)
      (fun s b u t hb hread h => by subst hb; exact server_before_read ha hread h)
      (fun b hb => eq_of_mem_reads hb) hlast
    rw [List.append_assoc, exec_append, hw]
    exact hfirst

theorem InTurns.read (h : InTurns fs start as s bs v front k) (hnext : s.next fs .read = some t) :
    InTurns fs start (as ++ [.read]) t bs v front (k + 1) where
  perm := by
    rw [reads_succ, ← List.append_assoc, ← List.append_assoc, List.append_assoc bs.flatten]
    exact h.perm.append_right [.read]
  turns := h.turns
  rest := h.rest
  order := h.order
  front_rank := h.front_rank
  run := by
    rw [reads_succ, ← List.append_assoc, exec_concat h.run, hnext]

/-- The client gives up the turn when the server has ended. -/
theorem InTurns.hangUp (h : InTurns fs start as s bs v front k)
    (hnext : s.next fs .hangUp = some t) : Sequential fs start (as ++ [.hangUp]) t := by
  have hmode : t.mode = .stopped := by
    simp only [next, Option.ite_none_right_eq_some, Option.some.injEq] at hnext
    obtain ⟨-, rfl⟩ := hnext
    rfl
  have horder : InOrder (front ++ (reads k ++ [.hangUp])) := by
    refine inOrder_front h.order h.front_rank ?_ ?_
    · refine List.pairwise_append.mpr
        ⟨inOrder_reads k, List.pairwise_singleton _ _, fun a ha b hb => ?_⟩
      rw [eq_of_mem_reads ha, List.mem_singleton.mp hb]
      exact ⟨Nat.le_succ 2, Nat.succ_pos 2⟩
    · intro a ha
      rcases List.mem_append.mp ha with ha | ha
      · rw [eq_of_mem_reads ha]
        exact Nat.le_refl _
      · rw [List.mem_singleton.mp ha]
        exact Nat.le_succ 2
  refine .inr ⟨hmode, bs ++ [front ++ (reads k ++ [.hangUp])], ?_, ?_⟩
  · rw [List.flatten_concat, ← List.append_assoc front, ← List.append_assoc]
    exact h.perm.append_right _
  · refine h.turns.snoc h.rest horder ?_
    rw [← List.append_assoc, exec_concat h.run, hnext]

theorem next_sequential (hs : s.InStep) (h : Sequential fs start as s)
    (hnext : s.next fs a = some t) : Sequential fs start (as ++ [a]) t := by
  rcases h with ⟨bs, v, front, k, h, hclosed⟩ | ⟨hmode, -⟩
  · rcases Nat.lt_trichotomy a.rank 1 with hrank | hrank | hrank
    · have ha : a.rank = 0 := by omega
      obtain ⟨rfl, rfl⟩ := hclosed (hs.resting_of_rank ha hnext)
      exact (h.sends ha hnext).sequential
    · exact (h.server hrank hnext).sequential
    · cases a with
      | read => exact (h.read hnext).sequential
      | hangUp => exact h.hangUp hnext
      | connect timestamp | typed line lines timestamp | fileLine timestamp => cases hrank
      | greet info timestamp | serve cwd info junk timestamp | proceed cwd =>
        exact absurd hrank (Nat.lt_irrefl 1)
  · rw [hs.next_stopped hmode] at hnext
    cases hnext

theorem start_resting (path : List Char) : (Exchange.start path : Exchange D).Resting := by
  refine ⟨⟨fun c hc => ?_, rfl, rfl, rfl, rfl⟩, rfl⟩
  obtain rfl := Option.some.inj hc
  rfl

/-- Every harmless interleaving of client and server is a reordering of one in which they take
turns, and leads to the same state: the client sends a command, then the server makes all its steps,
then the client reads. -/
theorem run_takesTurns (fs : FileSystem D) (path : List Char) (as : List (Action D))
    (s : Exchange D) (hok : StepsMeet (next fs) (Harmless fs) (.start path) as)
    (hrun : exec (next fs) (.start path) as = some s) :
    ∃ bs : List (List (Action D)), bs.flatten.Perm as ∧ Turns fs (.start path) bs s := by
  have hstart : InTurns fs (.start path) [] (.start path) [] (.start path) [] 0 :=
    ⟨List.Perm.refl _, .done _, start_resting path, List.Pairwise.nil, nofun, rfl⟩
  have hinv := exec_trace_invariant
    (I := fun as s => s.InStep ∧ Sequential fs (.start path) as s)
    (fun as s a t hs hnext => by
      obtain ⟨hok, hnext⟩ := permit_eq_some_iff.mp hnext
      exact ⟨next_inStep hs.1 hok hnext, next_sequential hs.1 hs.2 hnext⟩)
    ⟨start_inStep path, hstart.sequential⟩ (exec_permit_iff.mpr ⟨hok, hrun⟩)
  rcases hinv.2 with ⟨bs, v, front, k, h, -⟩ | ⟨-, h⟩
  · exact h.closed
  · exact h

/-- The first line of a listing is read before the second one is looked up. -/
def listed : List (Action Unit) :=
  connected ++ [.typed "list\n".toList none someTime, .serve () none [] someTime, .proceed (),
    .read, .proceed (), .read]

theorem run_takesTurns_listed :
    (exec (next flat) (.start "/".toList) listed).map (fun s => s.shown.length) = some 3 ∧
      ∀ s, exec (next flat) (.start "/".toList) listed = some s →
        ∃ bs : List (List (Action Unit)), bs.flatten.Perm listed ∧
          Turns flat (.start "/".toList) bs s :=
  ⟨by decide, fun s => run_takesTurns flat "/".toList listed s (by decide)⟩

end Turns

end Exchange

end OsispLabs.Lab8
