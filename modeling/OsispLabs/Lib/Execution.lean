import Mathlib.Data.List.Basic

/-!
# Executions of labelled machines

A machine is a partial function `next`: the state after a label, or `none` where the label is
not enabled. Every choice of the environment (which thread moves, what a system call returns)
is part of the label, so a list of labels is one interleaving and an execution is computed.
-/
namespace OsispLabs.Lib

variable {S A : Type*} {next : S → A → Option S}

/-- Run a list of labels, stopping with `none` at the first label that is not enabled. -/
def exec (next : S → A → Option S) : S → List A → Option S
  | s, [] => some s
  | s, a :: as => (next s a).bind fun t => exec next t as

@[simp] theorem exec_nil (s : S) : exec next s [] = some s := rfl

theorem exec_cons (s : S) (a : A) (as : List A) :
    exec next s (a :: as) = (next s a).bind fun t => exec next t as := rfl

theorem exec_cons_eq_some {s u : S} {a : A} {as : List A} :
    exec next s (a :: as) = some u ↔ ∃ t, next s a = some t ∧ exec next t as = some u := by
  rw [exec_cons, Option.bind_eq_some_iff]

theorem exec_append (s : S) (as bs : List A) :
    exec next s (as ++ bs) = (exec next s as).bind fun t => exec next t bs := by
  induction as generalizing s with
  | nil => rfl
  | cons a as ih =>
    rw [List.cons_append, exec_cons, exec_cons, Option.bind_assoc]
    congr 1
    funext t
    exact ih t

theorem exec_concat {s t : S} {a : A} {as : List A} (h : exec next s as = some t) :
    exec next s (as ++ [a]) = next t a := by
  rw [exec_append, h, Option.bind_some, exec_cons]
  exact Option.bind_fun_some _

/-- A machine that records more about its runs has the same runs. -/
theorem exec_map {R : Type*} {nextR : R → A → Option R} {abs : R → S}
    (h : ∀ r a, (nextR r a).map abs = next (abs r) a) (r : R) (as : List A) :
    (exec nextR r as).map abs = exec next (abs r) as := by
  induction as generalizing r with
  | nil => rfl
  | cons a as ih =>
    rw [exec_cons, exec_cons, ← h r a]
    cases nextR r a with
    | none => rfl
    | some u => exact ih u

/-- Every step of the run meets `ok`, a condition on the state before the step and its label. -/
def StepsMeet (next : S → A → Option S) (ok : S → A → Prop) : S → List A → Prop
  | _, [] => True
  | s, a :: as => ok s a ∧
      match next s a with
      | none => True
      | some t => StepsMeet next ok t as

instance StepsMeet.decidable (ok : S → A → Prop) [∀ s a, Decidable (ok s a)] :
    (s : S) → (as : List A) → Decidable (StepsMeet next ok s as)
  | _, [] => isTrue trivial
  | s, a :: as =>
    match h : next s a with
    | none => decidable_of_iff (ok s a) (by simp [StepsMeet, h])
    | some t =>
      have := StepsMeet.decidable ok t as
      decidable_of_iff (ok s a ∧ StepsMeet next ok t as) (by simp [StepsMeet, h])

/-- The run rule: what every permitted step preserves holds at the end of a permitted run. -/
theorem exec_invariant_of_steps {ok : S → A → Prop} {I : S → Prop}
    (hstep : ∀ s a t, I s → ok s a → next s a = some t → I t) {s t : S} {as : List A}
    (hs : I s) (hok : StepsMeet next ok s as) (hrun : exec next s as = some t) : I t := by
  induction as generalizing s with
  | nil =>
    obtain rfl : s = t := by simpa using hrun
    exact hs
  | cons a as ih =>
    obtain ⟨u, hu, hrest⟩ := exec_cons_eq_some.mp hrun
    simp only [StepsMeet, hu] at hok
    exact ih (hstep s a u hs hok.1 hu) hok.2 hrest

theorem stepsMeet_of_forall {ok : S → A → Prop} {as : List A} (h : ∀ a ∈ as, ∀ s, ok s a)
    (s : S) : StepsMeet next ok s as := by
  induction as generalizing s with
  | nil => trivial
  | cons a as ih =>
    refine ⟨h a List.mem_cons_self s, ?_⟩
    split
    · trivial
    · exact ih (fun b hb => h b (List.mem_cons_of_mem a hb)) _

theorem StepsMeet.and {ok ok' : S → A → Prop} {s : S} {as : List A} (h : StepsMeet next ok s as)
    (h' : StepsMeet next ok' s as) : StepsMeet next (fun s a => ok s a ∧ ok' s a) s as := by
  induction as generalizing s with
  | nil => trivial
  | cons a as ih =>
    simp only [StepsMeet] at h h' ⊢
    refine ⟨⟨h.1, h'.1⟩, ?_⟩
    cases hnext : next s a with
    | none => trivial
    | some t =>
      simp only [hnext] at h h'
      exact ih h.2 h'.2

/-- The run rule without a condition on the steps. -/
theorem exec_invariant {I : S → Prop} (hstep : ∀ s a t, I s → next s a = some t → I t)
    {s t : S} {as : List A} (hs : I s) (hrun : exec next s as = some t) : I t := by
  have hok : StepsMeet next (fun _ _ => True) s as :=
    stepsMeet_of_forall (fun _ _ _ => trivial) s
  exact exec_invariant_of_steps (fun s a t hi _ => hstep s a t hi) hs hok hrun

/-- The run rule for an invariant that mentions the labels of the run so far. -/
theorem exec_trace_invariant {I : List A → S → Prop}
    (hstep : ∀ as s a t, I as s → next s a = some t → I (as ++ [a]) t) {s t : S} {as : List A}
    (hs : I [] s) (hrun : exec next s as = some t) : I as t := by
  have hall : ∀ (bs : List A) (u : S), I bs u → exec next u as = some t → I (bs ++ as) t := by
    clear hs hrun
    induction as with
    | nil =>
      intro bs u hu hrun
      obtain rfl : u = t := by simpa using hrun
      rwa [List.append_nil]
    | cons a as ih =>
      intro bs u hu hrun
      obtain ⟨v, hv, hrest⟩ := exec_cons_eq_some.mp hrun
      have h := ih (bs ++ [a]) v (hstep bs u a v hu hv) hrest
      rwa [List.append_assoc, List.singleton_append] at h
  exact hall [] s hs hrun

/-- The converse of the run rule: where every step against `ok` leads to a lasting `Bad`, a run
that ends without `Bad` has kept to `ok`. -/
theorem stepsMeet_of_not_bad {perm ok : S → A → Prop} {I Bad : S → Prop}
    (hstep : ∀ s a t, I s → perm s a → next s a = some t → I t)
    (hbad : ∀ s a t, I s → perm s a → ¬ ok s a → next s a = some t → Bad t)
    (hlast : ∀ s a t, I s → perm s a → Bad s → next s a = some t → Bad t) {s t : S} {as : List A}
    (hs : I s) (hperm : StepsMeet next perm s as) (hrun : exec next s as = some t)
    (hgood : ¬ Bad t) : StepsMeet next ok s as := by
  induction as generalizing s with
  | nil => trivial
  | cons a as ih =>
    obtain ⟨u, hu, hrest⟩ := exec_cons_eq_some.mp hrun
    simp only [StepsMeet, hu] at hperm ⊢
    have hu_inv := hstep s a u hs hperm.1 hu
    refine ⟨?_, ih hu_inv hperm.2 hrest⟩
    by_contra hnot
    have hu_bad := hbad s a u hs hperm.1 hnot hu
    have hkeep : ∀ s a t, I s ∧ Bad s → perm s a → next s a = some t → I t ∧ Bad t :=
      fun s a t hi ha h => ⟨hstep s a t hi.1 ha h, hlast s a t hi.1 ha hi.2 h⟩
    exact hgood (exec_invariant_of_steps hkeep ⟨hu_inv, hu_bad⟩ hperm.2 hrest).2

/-- The premises of the next rule: among the permitted steps, which keep `I`, those that meet `ok`
keep `Good`, the others lead to a lasting `Bad`, and these two decide `P`. -/
structure Decides (next : S → A → Option S) (perm ok : S → A → Prop) (I Good Bad P : S → Prop) :
    Prop where
  step : ∀ {s a t}, I s → perm s a → next s a = some t → I t
  keep : ∀ {s a t}, I s → Good s → perm s a → ok s a → next s a = some t → Good t
  spoil : ∀ {s a t}, I s → perm s a → ¬ ok s a → next s a = some t → Bad t
  last : ∀ {s a t}, I s → perm s a → Bad s → next s a = some t → Bad t
  good : ∀ {s}, I s → Good s → P s
  bad : ∀ {s}, I s → Bad s → ¬ P s

/-- A permitted run ends with `P` exactly when all its steps meet `ok`. -/
theorem Decides.iff_stepsMeet {perm ok : S → A → Prop} {I Good Bad P : S → Prop}
    (h : Decides next perm ok I Good Bad P) {s t : S} {as : List A} (hs : I s) (hgood : Good s)
    (hperm : StepsMeet next perm s as) (hrun : exec next s as = some t) :
    P t ↔ StepsMeet next ok s as := by
  have ht : I t := exec_invariant_of_steps (fun _ _ _ => h.step) hs hperm hrun
  constructor
  · intro hP
    have hnot : ¬ Bad t := fun hbad => h.bad ht hbad hP
    exact stepsMeet_of_not_bad (fun _ _ _ => h.step) (fun _ _ _ => h.spoil)
      (fun _ _ _ => h.last) hs hperm hrun hnot
  · intro hok
    have hkeep : ∀ s a t, I s ∧ Good s → perm s a ∧ ok s a → next s a = some t → I t ∧ Good t :=
      fun s a t hi ha hnext => ⟨h.step hi.1 ha.1 hnext, h.keep hi.1 hi.2 ha.1 ha.2 hnext⟩
    have hboth := exec_invariant_of_steps hkeep ⟨hs, hgood⟩ (hperm.and hok) hrun
    exact h.good ht hboth.2

/-- The same for a machine whose steps are all permitted. -/
theorem Decides.iff_stepsMeet_of_all {ok : S → A → Prop} {I Good Bad P : S → Prop}
    (h : Decides next (fun _ _ => True) ok I Good Bad P) {s t : S} {as : List A} (hs : I s)
    (hgood : Good s) (hrun : exec next s as = some t) : P t ↔ StepsMeet next ok s as :=
  h.iff_stepsMeet hs hgood (stepsMeet_of_forall (fun _ _ _ => trivial) s) hrun

/-- `P` holds in every state that the run reaches, its first and its last included. -/
def Throughout (next : S → A → Option S) (P : S → Prop) (s : S) (as : List A) : Prop :=
  ∀ bs, bs <+: as → ∀ t, exec next s bs = some t → P t

/-- Where every permitted step against `ok` leads to a state without `P`, the permitted runs that
have `P` in every state are those that keep to `ok`. -/
theorem throughout_iff_stepsMeet_of_permitted {perm ok : S → A → Prop} {I P : S → Prop}
    (hstep : ∀ s a t, I s → perm s a → ok s a → next s a = some t → I t) (hP : ∀ s, I s → P s)
    (hbad : ∀ s a t, I s → perm s a → ¬ ok s a → next s a = some t → ¬ P t) {s t : S}
    {as : List A} (hs : I s) (hperm : StepsMeet next perm s as) (hrun : exec next s as = some t) :
    Throughout next P s as ↔ StepsMeet next ok s as := by
  induction as generalizing s with
  | nil =>
    refine ⟨fun _ => trivial, fun _ bs hbs u hu => ?_⟩
    obtain rfl := List.prefix_nil.mp hbs
    obtain rfl : s = u := by simpa using hu
    exact hP s hs
  | cons a as ih =>
    obtain ⟨u, hu, hrest⟩ := exec_cons_eq_some.mp hrun
    simp only [StepsMeet, hu] at hperm ⊢
    obtain ⟨hpermit, hperm⟩ := hperm
    constructor
    · intro hall
      have hok : ok s a := by
        by_contra hnot
        refine hbad s a u hs hpermit hnot hu (hall [a] ⟨as, rfl⟩ u ?_)
        rw [exec_cons, hu]
        rfl
      refine ⟨hok, (ih (hstep s a u hs hpermit hok hu) hperm hrest).mp fun bs hbs v hv => ?_⟩
      refine hall (a :: bs) (List.cons_prefix_cons.mpr ⟨rfl, hbs⟩) v ?_
      rw [exec_cons, hu]
      exact hv
    · rintro ⟨hok, hmeet⟩ bs hbs v hv
      cases bs with
      | nil =>
        obtain rfl : s = v := by simpa using hv
        exact hP s hs
      | cons b bs =>
        obtain ⟨rfl, hpre⟩ := List.cons_prefix_cons.mp hbs
        obtain ⟨w, hw, hvrest⟩ := exec_cons_eq_some.mp hv
        obtain rfl : u = w := Option.some.inj (hu.symm.trans hw)
        exact (ih (hstep s b u hs hpermit hok hu) hperm hrest).mpr hmeet bs hpre v hvrest

/-- The same for a machine whose steps are all permitted. -/
theorem throughout_iff_stepsMeet {ok : S → A → Prop} {I P : S → Prop}
    (hstep : ∀ s a t, I s → ok s a → next s a = some t → I t) (hP : ∀ s, I s → P s)
    (hbad : ∀ s a t, I s → ¬ ok s a → next s a = some t → ¬ P t) {s t : S} {as : List A}
    (hs : I s) (hrun : exec next s as = some t) :
    Throughout next P s as ↔ StepsMeet next ok s as := by
  have hperm : StepsMeet next (fun _ _ => True) s as :=
    stepsMeet_of_forall (fun _ _ _ => trivial) s
  exact throughout_iff_stepsMeet_of_permitted (fun s a t hi _ => hstep s a t hi) hP
    (fun s a t hi _ => hbad s a t hi) hs hperm hrun

/-- Every step of the run satisfies `Q`, which relates the states before and after it. -/
def EveryStep (next : S → A → Option S) (Q : S → A → S → Prop) (s : S) (as : List A) : Prop :=
  ∀ bs a, bs ++ [a] <+: as → ∀ u v, exec next s bs = some u → next u a = some v → Q u a v

theorem everyStep_nil {Q : S → A → S → Prop} (s : S) : EveryStep next Q s [] := by
  intro bs a hpre
  exact absurd (List.prefix_nil.mp hpre) (by simp)

theorem everyStep_cons {Q : S → A → S → Prop} {s t : S} {a : A} {as : List A}
    (h : next s a = some t) : EveryStep next Q s (a :: as) ↔ Q s a t ∧ EveryStep next Q t as := by
  constructor
  · intro hall
    refine ⟨hall [] a (List.prefix_append [a] as) s t rfl h, fun bs b hpre u v hu hv => ?_⟩
    refine hall (a :: bs) b (List.cons_prefix_cons.mpr ⟨rfl, hpre⟩) u v ?_ hv
    rw [exec_cons, h]
    exact hu
  · rintro ⟨hfirst, hrest⟩ bs b hpre u v hu hv
    cases bs with
    | nil =>
      obtain rfl : s = u := by simpa using hu
      obtain ⟨rfl, -⟩ := List.cons_prefix_cons.mp hpre
      obtain rfl : t = v := Option.some.inj (h.symm.trans hv)
      exact hfirst
    | cons c bs =>
      obtain ⟨rfl, htail⟩ := List.cons_prefix_cons.mp hpre
      obtain ⟨w, hw, hu⟩ := exec_cons_eq_some.mp hu
      obtain rfl : t = w := Option.some.inj (h.symm.trans hw)
      exact hrest bs b htail u v hu hv

/-- Where a step satisfies `Q` exactly when it meets `ok`, so does every step of a run. -/
theorem everyStep_iff_stepsMeet {ok : S → A → Prop} {I : S → Prop} {Q : S → A → S → Prop}
    (hstep : ∀ s a t, I s → ok s a → next s a = some t → I t)
    (hiff : ∀ s a t, I s → next s a = some t → (Q s a t ↔ ok s a)) {s t : S} {as : List A}
    (hs : I s) (hrun : exec next s as = some t) :
    EveryStep next Q s as ↔ StepsMeet next ok s as := by
  induction as generalizing s with
  | nil => exact ⟨fun _ => trivial, fun _ => everyStep_nil s⟩
  | cons a as ih =>
    obtain ⟨u, hu, hrest⟩ := exec_cons_eq_some.mp hrun
    simp only [StepsMeet, hu]
    rw [everyStep_cons hu, hiff s a u hs hu]
    exact and_congr_right fun hok => ih (hstep s a u hs hok hu) hrest

/-- The termination rule: a measure that every step decreases bounds the length of a run. -/
theorem exec_length_le {I : S → Prop} {m : S → ℕ}
    (hI : ∀ s a t, I s → next s a = some t → I t)
    (hm : ∀ s a t, I s → next s a = some t → m t < m s) {s t : S} {as : List A} (hs : I s)
    (hrun : exec next s as = some t) : as.length + m t ≤ m s := by
  induction as generalizing s with
  | nil =>
    obtain rfl : s = t := by simpa using hrun
    simp
  | cons a as ih =>
    obtain ⟨u, hu, hrest⟩ := exec_cons_eq_some.mp hrun
    have hlt := hm s a u hs hu
    have hle := ih (hI s a u hs hu) hrest
    rw [List.length_cons]
    omega

/-- The accounting rule: where every permitted step raises a potential, up to `k` for some labels,
the potential and the number of these labels bound the length of a run. -/
theorem exec_length_le_potential {ok : S → A → Prop} {I : S → Prop} {m : S → ℕ} (k : ℕ)
    (costs : A → Bool) (hI : ∀ s a t, I s → ok s a → next s a = some t → I t)
    (hm : ∀ s a t, I s → ok s a → next s a = some t →
      m s + 1 ≤ m t + if costs a then k else 0) {s t : S}
    {as : List A} (hs : I s) (hok : StepsMeet next ok s as) (hrun : exec next s as = some t) :
    as.length + m s ≤ m t + k * as.countP costs := by
  induction as generalizing s with
  | nil =>
    obtain rfl : s = t := by simpa using hrun
    simp
  | cons a as ih =>
    obtain ⟨u, hu, hrest⟩ := exec_cons_eq_some.mp hrun
    simp only [StepsMeet, hu] at hok
    have hstep := hm s a u hs hok.1 hu
    have hle := ih (hI s a u hs hok.1 hu) hok.2 hrest
    rw [List.length_cons, List.countP_cons]
    split_ifs at hstep ⊢ <;> simp only [Nat.mul_add] <;> omega

/-- When runs are bounded and only final states are stuck, some run ends in a final state. -/
theorem exists_exec_final {final : S → Prop} {s : S} {n : ℕ}
    (hmove : ∀ as t, exec next s as = some t → ¬ final t → ∃ a, (next t a).isSome)
    (hn : ∀ as t, exec next s as = some t → as.length ≤ n) :
    ∃ as t, exec next s as = some t ∧ final t := by
  by_contra hnone
  have hlong : ∀ k, ∃ as t, exec next s as = some t ∧ as.length = k := by
    intro k
    induction k with
    | zero => exact ⟨[], s, rfl, rfl⟩
    | succ k ih =>
      obtain ⟨as, t, hrun, hlen⟩ := ih
      obtain ⟨a, ha⟩ := hmove as t hrun fun hfinal => hnone ⟨as, t, hrun, hfinal⟩
      obtain ⟨u, hu⟩ := Option.isSome_iff_exists.mp ha
      exact ⟨as ++ [a], u, by rw [exec_concat hrun, hu], by simp [hlen]⟩
  obtain ⟨as, t, hrun, hlen⟩ := hlong (n + 1)
  have hle := hn as t hrun
  omega

/-- A run that comes to satisfy `P` has a step that brings this about. -/
theorem exec_enters {P : S → Prop} {s t : S} {as : List A} (hs : ¬ P s) (ht : P t)
    (hrun : exec next s as = some t) :
    ∃ bs a u v, exec next s bs = some u ∧ ¬ P u ∧ next u a = some v ∧ P v := by
  induction as generalizing s with
  | nil =>
    obtain rfl : s = t := by simpa using hrun
    exact absurd ht hs
  | cons a as ih =>
    obtain ⟨u, hu, hrest⟩ := exec_cons_eq_some.mp hrun
    by_cases hP : P u
    · exact ⟨[], a, s, u, rfl, hs, hu, hP⟩
    · obtain ⟨bs, b, v, w, hbs, hv, hstep, hw⟩ := ih hP hrest
      exact ⟨a :: bs, b, v, w, by rw [exec_cons, hu, Option.bind_some, hbs], hv, hstep, hw⟩

/-- The exchange rule: a step that may come before each of some earlier steps may come before them
all. -/
theorem exec_overtake (late : A → Prop) {a : A}
    (hswap : ∀ s b u t, late b → next s b = some u → next u a = some t →
      ∃ v, next s a = some v ∧ next v b = some t) {bs : List A} (hlate : ∀ b ∈ bs, late b)
    {s t : S} (hrun : exec next s (bs ++ [a]) = some t) : exec next s (a :: bs) = some t := by
  induction bs generalizing s with
  | nil => exact hrun
  | cons b bs ih =>
    obtain ⟨u, hu, hrest⟩ := exec_cons_eq_some.mp hrun
    obtain ⟨v, hv, hbs⟩ :=
      exec_cons_eq_some.mp (ih (fun c hc => hlate c (List.mem_cons_of_mem b hc)) hrest)
    obtain ⟨w, hw, hb⟩ := hswap s b u v (hlate b List.mem_cons_self) hu hv
    exact exec_cons_eq_some.mpr ⟨w, hw, exec_cons_eq_some.mpr ⟨v, hb, hbs⟩⟩

/-- The projection rule: when every permitted step is a step of a second machine or invisible to
it, a permitted run is a run of the second machine. -/
theorem exec_filterMap {T B : Type*} {next' : T → B → Option T} {ok : S → A → Prop} {I : S → Prop}
    (abs : S → T) (proj : A → Option B) (hI : ∀ s a t, I s → ok s a → next s a = some t → I t)
    (hstep : ∀ s a t b, I s → ok s a → next s a = some t → proj a = some b →
      next' (abs s) b = some (abs t))
    (hskip : ∀ s a t, I s → ok s a → next s a = some t → proj a = none → abs t = abs s)
    {s t : S} {as : List A} (hs : I s) (hok : StepsMeet next ok s as)
    (hrun : exec next s as = some t) : exec next' (abs s) (as.filterMap proj) = some (abs t) := by
  induction as generalizing s with
  | nil =>
    obtain rfl : s = t := by simpa using hrun
    rfl
  | cons a as ih =>
    obtain ⟨u, hu, hrest⟩ := exec_cons_eq_some.mp hrun
    simp only [StepsMeet, hu] at hok
    have htail := ih (hI s a u hs hok.1 hu) hok.2 hrest
    cases hproj : proj a with
    | none =>
      rw [List.filterMap_cons_none hproj, ← hskip s a u hs hok.1 hu hproj]
      exact htail
    | some b =>
      rw [List.filterMap_cons_some hproj, exec_cons, hstep s a u b hs hok.1 hu hproj]
      exact htail

end OsispLabs.Lib
