import Mathlib.Data.List.Perm.Basic
import Mathlib.Data.List.Flatten

/-!
# Recursive traversals

A function that goes through the items of its argument, puts something out for each and calls itself
on some of them. It may call itself for ever, so it is computed with fuel, and its result is what it
puts out with enough of it.
-/
namespace OsispLabs.Lib

variable {A B : Type*}

/-- The output for an item, with that of the recursive call if there is one. -/
def visitItem (call : A → Option (List B)) (item : List B × Option A) : Option (List B) :=
  match item.2 with
  | none => some item.1
  | some a => (call a).map (item.1 ++ ·)

/-- The output for `a`, whose items are `step a`, or `none` if the calls go deeper than the fuel. -/
def traverse (step : A → List (List B × Option A)) : ℕ → A → Option (List B)
  | 0, _ => none
  | n + 1, a => ((step a).mapM (visitItem (traverse step n))).map List.flatten

/-- The traversal of `a` ends with this output. -/
def Yields (step : A → List (List B × Option A)) (a : A) (out : List B) : Prop :=
  ∃ n, traverse step n a = some out

def ItemYields (step : A → List (List B × Option A)) (item : List B × Option A) (out : List B) :
    Prop :=
  match item.2 with
  | none => out = item.1
  | some a => ∃ rest, Yields step a rest ∧ out = item.1 ++ rest

/-- The outputs for the items, one behind the other. -/
def ItemsYield (step : A → List (List B × Option A)) (items : List (List B × Option A))
    (out : List B) : Prop :=
  ∃ outs, List.Forall₂ (ItemYields step) items outs ∧ out = outs.flatten

variable {step : A → List (List B × Option A)} {item : List B × Option A}
  {items : List (List B × Option A)} {a : A} {out : List B} {n : ℕ}

theorem mapM_eq_some_iff {f : A → Option B} {as : List A} {bs : List B} :
    as.mapM f = some bs ↔ List.Forall₂ (fun a b => f a = some b) as bs := by
  induction as generalizing bs with
  | nil =>
    rw [List.forall₂_nil_left_iff]
    simp [eq_comm]
  | cons a as ih =>
    simp only [List.mapM_cons, List.forall₂_cons_left_iff, ← ih]
    cases f a <;> cases as.mapM f <;> simp [eq_comm]

theorem traverse_succ_eq_some_iff :
    traverse step (n + 1) a = some out ↔
      ∃ outs, List.Forall₂ (fun item o => visitItem (traverse step n) item = some o) (step a) outs ∧
        out = outs.flatten := by
  simp only [traverse, Option.map_eq_some_iff, mapM_eq_some_iff, @eq_comm _ out]

theorem visitItem_mono {f g : A → Option (List B)} (h : ∀ a out, f a = some out → g a = some out)
    (hitem : visitItem f item = some out) : visitItem g item = some out := by
  rcases item with ⟨printed, _ | a⟩
  · exact hitem
  · obtain ⟨rest, hrest, rfl⟩ := Option.map_eq_some_iff.mp hitem
    exact Option.map_eq_some_iff.mpr ⟨rest, h a rest hrest, rfl⟩

theorem traverse_succ_of_some (h : traverse step n a = some out) :
    traverse step (n + 1) a = some out := by
  induction n generalizing a out with
  | zero => cases h
  | succ n ih =>
    obtain ⟨outs, houts, rfl⟩ := traverse_succ_eq_some_iff.mp h
    refine traverse_succ_eq_some_iff.mpr ⟨outs, houts.imp fun item o hitem => ?_, rfl⟩
    exact visitItem_mono (fun a out => ih) hitem

/-- More fuel changes nothing. -/
theorem traverse_mono {m : ℕ} (h : traverse step n a = some out) (hle : n ≤ m) :
    traverse step m a = some out := by
  induction hle with
  | refl => exact h
  | step _ ih => exact traverse_succ_of_some ih

theorem Yields.unique {out' : List B} (h : Yields step a out) (h' : Yields step a out') :
    out = out' := by
  obtain ⟨n, hn⟩ := h
  obtain ⟨m, hm⟩ := h'
  have hmax := traverse_mono hn (Nat.le_max_left n m)
  rw [traverse_mono hm (Nat.le_max_right n m)] at hmax
  exact (Option.some.inj hmax).symm

theorem itemYields_iff :
    ItemYields step item out ↔ ∃ n, visitItem (traverse step n) item = some out := by
  rcases item with ⟨printed, _ | a⟩
  · simp [ItemYields, visitItem, eq_comm]
  · simp only [ItemYields, Yields, visitItem, Option.map_eq_some_iff, @eq_comm _ out]
    constructor
    · rintro ⟨rest, ⟨n, hn⟩, hout⟩
      exact ⟨n, rest, hn, hout⟩
    · rintro ⟨n, rest, hn, hout⟩
      exact ⟨rest, ⟨n, hn⟩, hout⟩

/-- Finitely many calls that end, end with a common amount of fuel. -/
theorem exists_fuel {outs : List (List B)} (h : List.Forall₂ (ItemYields step) items outs) :
    ∃ n, List.Forall₂ (fun item o => visitItem (traverse step n) item = some o) items outs := by
  induction h with
  | nil => exact ⟨0, .nil⟩
  | cons hitem _ ih =>
    obtain ⟨n, hn⟩ := itemYields_iff.mp hitem
    obtain ⟨m, hm⟩ := ih
    refine ⟨max n m, .cons ?_ (hm.imp fun item o ho => ?_)⟩
    · exact visitItem_mono (fun a out h => traverse_mono h (Nat.le_max_left n m)) hn
    · exact visitItem_mono (fun a out h => traverse_mono h (Nat.le_max_right n m)) ho

/-- The recursion, without fuel. -/
theorem yields_iff : Yields step a out ↔ ItemsYield step (step a) out := by
  constructor
  · rintro ⟨n, hn⟩
    cases n with
    | zero => cases hn
    | succ n =>
      obtain ⟨outs, houts, rfl⟩ := traverse_succ_eq_some_iff.mp hn
      exact ⟨outs, houts.imp fun item o ho => itemYields_iff.mpr ⟨n, ho⟩, rfl⟩
  · rintro ⟨outs, houts, rfl⟩
    obtain ⟨n, hn⟩ := exists_fuel houts
    exact ⟨n + 1, traverse_succ_eq_some_iff.mpr ⟨outs, hn, rfl⟩⟩

@[simp] theorem itemsYield_nil : ItemsYield step [] out ↔ out = [] := by
  simp [ItemsYield]

theorem itemsYield_cons :
    ItemsYield step (item :: items) out ↔
      ∃ o rest, ItemYields step item o ∧ ItemsYield step items rest ∧ out = o ++ rest := by
  simp only [ItemsYield, List.forall₂_cons_left_iff]
  constructor
  · rintro ⟨_, ⟨o, outs, ho, houts, rfl⟩, rfl⟩
    exact ⟨o, outs.flatten, ho, ⟨outs, houts, rfl⟩, rfl⟩
  · rintro ⟨o, rest, ho, ⟨outs, houts, rfl⟩, rfl⟩
    exact ⟨o :: outs, ⟨o, outs, ho, houts, rfl⟩, rfl⟩

/-- Items that neither put anything out nor lead to a call count for nothing. -/
theorem itemsYield_map_filter {C : Type*} {cs : List C} {f : C → List B × Option A} (p : C → Bool)
    (hp : ∀ c ∈ cs, p c = false → f c = ([], none)) :
    ItemsYield step ((cs.filter p).map f) out ↔ ItemsYield step (cs.map f) out := by
  induction cs generalizing out with
  | nil => rfl
  | cons c cs ih =>
    have htail : ∀ d ∈ cs, p d = false → f d = ([], none) :=
      fun d hd => hp d (List.mem_cons_of_mem c hd)
    cases hc : p c with
    | true =>
      rw [List.filter_cons_of_pos hc, List.map_cons, List.map_cons, itemsYield_cons,
        itemsYield_cons]
      simp only [ih htail]
    | false =>
      rw [List.filter_cons_of_neg (by simp [hc]), ih htail, List.map_cons,
        hp c List.mem_cons_self hc, itemsYield_cons]
      simp [ItemYields]

/-- The items in another order put out the same in another order. -/
theorem ItemsYield.perm {items' : List (List B × Option A)} (h : ItemsYield step items out)
    (hperm : items'.Perm items) : ∃ out', ItemsYield step items' out' ∧ out'.Perm out := by
  obtain ⟨outs, houts, rfl⟩ := h
  obtain ⟨outs', houts', hperm'⟩ := List.perm_comp_forall₂ hperm houts
  exact ⟨outs'.flatten, ⟨outs', houts', rfl⟩, hperm'.flatten⟩

theorem exists_right_of_mem {R : A → B → Prop} {as : List A} {bs : List B}
    (h : List.Forall₂ R as bs) {a : A} (ha : a ∈ as) : ∃ b ∈ bs, R a b := by
  induction h with
  | nil => cases ha
  | cons hab _ ih =>
    rcases List.mem_cons.mp ha with rfl | ha
    · exact ⟨_, List.mem_cons_self, hab⟩
    · obtain ⟨b, hb, hR⟩ := ih ha
      exact ⟨b, List.mem_cons_of_mem _ hb, hR⟩

theorem exists_left_of_mem {R : A → B → Prop} {as : List A} {bs : List B}
    (h : List.Forall₂ R as bs) {b : B} (hb : b ∈ bs) : ∃ a ∈ as, R a b :=
  exists_right_of_mem h.flip hb

/-- What holds of everything that an item puts out holds of everything put out. -/
theorem Yields.forall_mem {P : B → Prop} (hP : ∀ a, ∀ item ∈ step a, ∀ b ∈ item.1, P b)
    (h : Yields step a out) : ∀ b ∈ out, P b := by
  obtain ⟨n, hn⟩ := h
  induction n generalizing a out with
  | zero => cases hn
  | succ n ih =>
    obtain ⟨outs, houts, rfl⟩ := traverse_succ_eq_some_iff.mp hn
    intro b hb
    obtain ⟨o, ho, hbo⟩ := List.mem_flatten.mp hb
    obtain ⟨⟨printed, call⟩, hitem, hvisit⟩ := exists_left_of_mem houts ho
    have hprinted := hP a _ hitem
    cases call with
    | none =>
      obtain rfl : printed = o := Option.some.inj hvisit
      exact hprinted b hbo
    | some c =>
      obtain ⟨rest, hrest, rfl⟩ := Option.map_eq_some_iff.mp hvisit
      rcases List.mem_append.mp hbo with hmem | hmem
      · exact hprinted b hmem
      · exact ih hrest b hmem

/-- The same calls with other output: the result is the output for the result. -/
theorem traverse_map {C : Type*} {step' : A → List (List C × Option A)} {g : List B → List C}
    (happend : ∀ xs ys, g (xs ++ ys) = g xs ++ g ys)
    (hstep : ∀ a, step' a = (step a).map fun item => (g item.1, item.2)) (n : ℕ) (a : A) :
    traverse step' n a = (traverse step n a).map g := by
  have hflatten : ∀ outs : List (List B), g outs.flatten = (outs.map g).flatten := by
    have hnil : g [] = [] := by
      have hlen := congrArg List.length (happend [] [])
      rw [List.append_nil, List.length_append] at hlen
      exact List.eq_nil_of_length_eq_zero (by omega)
    intro outs
    induction outs with
    | nil => exact hnil
    | cons o outs ih => rw [List.flatten_cons, happend, ih, List.map_cons, List.flatten_cons]
  induction n generalizing a with
  | zero => rfl
  | succ n ih =>
    have hvisit : ∀ item : List B × Option A, visitItem (traverse step' n) (g item.1, item.2) =
        (visitItem (traverse step n) item).map g := by
      rintro ⟨printed, _ | b⟩
      · rfl
      · simp only [visitItem, ih, Option.map_map]
        congr 1
        funext rest
        exact (happend printed rest).symm
    have hmapM : ∀ items : List (List B × Option A),
        (items.map fun item => (g item.1, item.2)).mapM (visitItem (traverse step' n)) =
          (items.mapM (visitItem (traverse step n))).map (List.map g) := by
      intro items
      induction items with
      | nil => rfl
      | cons item items ihs =>
        rw [List.map_cons, List.mapM_cons, List.mapM_cons, hvisit, ihs]
        cases visitItem (traverse step n) item <;>
          cases items.mapM (visitItem (traverse step n)) <;> rfl
    rw [traverse, hstep, hmapM, traverse, Option.map_map, Option.map_map]
    congr 1
    funext outs
    exact (hflatten outs).symm

/-- Where every argument in `P` leads to a call with another one, the traversal does not end. -/
theorem not_yields {P : A → Prop} (hP : ∀ a, P a → ∃ b, ∃ item ∈ step a, item.2 = some b ∧ P b)
    (ha : P a) : ¬ Yields step a out := by
  rintro ⟨n, hn⟩
  induction n generalizing a out with
  | zero => cases hn
  | succ n ih =>
    obtain ⟨outs, houts, -⟩ := traverse_succ_eq_some_iff.mp hn
    obtain ⟨b, ⟨printed, call⟩, hitem, rfl, hb⟩ := hP a ha
    obtain ⟨o, -, hvisit⟩ := exists_right_of_mem houts hitem
    obtain ⟨rest, hrest, -⟩ := Option.map_eq_some_iff.mp hvisit
    exact ih hb hrest

end OsispLabs.Lib
