import OsispLabs.Lib.Execution

/-!
# Refinement of machines

A machine refines another when each of its steps is matched by a run of the other: an empty one for
a step that the other does not see, a longer one for a step that the other divides.
-/
namespace OsispLabs.Lib

variable {S T U A B C : Type*} {next : S → A → Option S} {next' : T → B → Option T}
  {next'' : U → C → Option U}

/-- From related states, each step is matched by a run to related states. -/
def Refines (next : S → A → Option S) (next' : T → B → Option T) (R : S → T → Prop) : Prop :=
  ∀ s u a t, R s u → next s a = some t → ∃ bs v, exec next' u bs = some v ∧ R t v

theorem exec_trans {s t u : S} {as bs : List A} (h : exec next s as = some t)
    (h' : exec next t bs = some u) : exec next s (as ++ bs) = some u := by
  rw [exec_append, h, Option.bind_some, h']

theorem exec_single {s : S} (a : A) : exec next s [a] = next s a := by
  rw [exec_cons]
  exact Option.bind_fun_some _

/-- The steps may be matched one at a time. -/
theorem Refines.run {R : S → T → Prop} (h : Refines next next' R) {s t : S} {u : T} {as : List A}
    (hR : R s u) (hrun : exec next s as = some t) :
    ∃ bs v, exec next' u bs = some v ∧ R t v := by
  induction as generalizing s u with
  | nil =>
    obtain rfl : s = t := by simpa using hrun
    exact ⟨[], u, rfl, hR⟩
  | cons a as ih =>
    obtain ⟨s₁, hs₁, hrest⟩ := exec_cons_eq_some.mp hrun
    obtain ⟨bs, u₁, hbs, hR₁⟩ := h s u a s₁ hR hs₁
    obtain ⟨cs, v, hcs, hRv⟩ := ih hR₁ hrest
    exact ⟨bs ++ cs, v, exec_trans hbs hcs, hRv⟩

/-- The labels that `f` gives to the steps of a run, in their order. -/
def emitted (next : S → A → Option S) (f : S → A → List B) : S → List A → List B
  | _, [] => []
  | s, a :: as => f s a ++
      match next s a with
      | none => []
      | some t => emitted next f t as

/-- Where `f` gives the steps that match a step, it gives the run that matches a run. -/
theorem exec_emitted {R : S → T → Prop} {f : S → A → List B} (h : ∀ s u a t, R s u →
    next s a = some t → ∃ v, exec next' u (f s a) = some v ∧ R t v) {s t : S} {u : T} {as : List A}
    (hR : R s u) (hrun : exec next s as = some t) :
    ∃ v, exec next' u (emitted next f s as) = some v ∧ R t v := by
  induction as generalizing s u with
  | nil =>
    obtain rfl : s = t := by simpa using hrun
    exact ⟨u, rfl, hR⟩
  | cons a as ih =>
    obtain ⟨s₁, hs₁, hrest⟩ := exec_cons_eq_some.mp hrun
    obtain ⟨u₁, hu₁, hR₁⟩ := h s u a s₁ hR hs₁
    obtain ⟨v, hv, hRv⟩ := ih hR₁ hrest
    refine ⟨v, ?_, hRv⟩
    rw [emitted, hs₁]
    exact exec_trans hu₁ hv

theorem Refines.comp {R : S → T → Prop} {R' : T → U → Prop} (h : Refines next next' R)
    (h' : Refines next' next'' R') : Refines next next'' fun s w => ∃ u, R s u ∧ R' u w := by
  intro s w a t ⟨u, hR, hR'⟩ hnext
  obtain ⟨bs, v, hbs, hRv⟩ := h s u a t hR hnext
  obtain ⟨cs, x, hcs, hR'x⟩ := h'.run hR' hbs
  exact ⟨cs, x, hcs, v, hRv, hR'x⟩

/-- What holds of every reachable state of the abstract machine holds of a state related to each
reachable one of the concrete machine. -/
theorem Refines.transfer {R : S → T → Prop} (h : Refines next next' R) {P : T → Prop} {s t : S}
    {u : T} {as : List A} (hR : R s u) (hP : ∀ bs v, exec next' u bs = some v → P v)
    (hrun : exec next s as = some t) : ∃ v, R t v ∧ P v := by
  obtain ⟨bs, v, hbs, hRv⟩ := h.run hR hrun
  exact ⟨v, hRv, hP bs v hbs⟩

/-- The machine that makes only the permitted steps. -/
def permit (next : S → A → Option S) (ok : S → A → Prop) [∀ s a, Decidable (ok s a)] (s : S)
    (a : A) : Option S :=
  if ok s a then next s a else none

theorem permit_eq_some_iff {ok : S → A → Prop} [∀ s a, Decidable (ok s a)] {s t : S} {a : A} :
    permit next ok s a = some t ↔ ok s a ∧ next s a = some t := by
  rw [permit]
  split
  case isTrue h => simp [h]
  case isFalse h => simp [h]

/-- The runs of that machine are the permitted runs. -/
theorem exec_permit_iff {ok : S → A → Prop} [∀ s a, Decidable (ok s a)] {s t : S} {as : List A} :
    exec (permit next ok) s as = some t ↔ StepsMeet next ok s as ∧ exec next s as = some t := by
  induction as generalizing s with
  | nil => simp [StepsMeet]
  | cons a as ih =>
    rw [exec_cons_eq_some, exec_cons_eq_some]
    constructor
    · rintro ⟨u, hu, hrest⟩
      obtain ⟨hok, hnext⟩ := permit_eq_some_iff.mp hu
      obtain ⟨hmeets, hrest⟩ := ih.mp hrest
      exact ⟨by simp only [StepsMeet, hnext]; exact ⟨hok, hmeets⟩, u, hnext, hrest⟩
    · rintro ⟨hmeets, u, hnext, hrest⟩
      simp only [StepsMeet, hnext] at hmeets
      exact ⟨u, permit_eq_some_iff.mpr ⟨hmeets.1, hnext⟩, ih.mpr ⟨hmeets.2, hrest⟩⟩

/-- A run of at most one step is permitted if its step is. -/
theorem stepsMeet_of_atMostOne {ok : S → A → Prop} {s : S} {as : List A} (hlen : as.length ≤ 1)
    (h : ∀ a ∈ as, ok s a) : StepsMeet next ok s as := by
  match as, hlen with
  | [], _ => trivial
  | [a], _ =>
    refine ⟨h a List.mem_cons_self, ?_⟩
    cases next s a <;> trivial

end OsispLabs.Lib
