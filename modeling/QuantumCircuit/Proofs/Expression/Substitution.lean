import Mathlib.Algebra.BigOperators.Ring.List
import QuantumCircuit.Proofs.Expression.Build
import QuantumCircuit.Proofs.Rationals

/-!
# Values and instances of expressions

An instance of an expression keeps the terms whose variables are not bound and adds the values of
the others to the constant, in the order in which evaluating adds them.  So an expression has a
value exactly if nothing is left of its terms, and the value is what is left, whatever the
arithmetic is.  Over the rational numbers evaluating is linear, and binding variables in two steps
is binding them in one.
-/

namespace QuantumCircuit

namespace Assignment

variable {S : Type} {a b : Assignment S} {x : String}

/-- The values of an assignment, and those of another one for the variables it does not bind. -/
def extendedBy (a b : Assignment S) : Assignment S :=
  ⟨fun x => (a.value? x).or (b.value? x)⟩

theorem extendedBy_of_bound {v : S} (bound : a.value? x = some v) :
    (a.extendedBy b).value? x = some v :=
  congrArg (Option.or · (b.value? x)) bound

theorem extendedBy_of_unbound (unbound : a.value? x = none) :
    (a.extendedBy b).value? x = b.value? x :=
  (congrArg (Option.or · (b.value? x)) unbound).trans Option.none_or

end Assignment

namespace Expression

section Arithmetic

variable {S : Type} [Scalar S] {a : Assignment S} {e : Expression S}

/-! ## Values and instances in the same order -/

/-- Adds the value of a term to a number if the variable is bound. -/
def settle (a : Assignment S) (acc : S) (t : Term S) : S :=
  match a.value? t.name with
  | some v => acc + t.coefficient * v
  | none => acc

/-- A term with a variable after all others is put at the end. -/
theorem insertTerm_last {t : Term S} (nonzero : Scalar.isZero t.coefficient = false)
    {terms : List (Term S)} (last : ∀ s ∈ terms, compare s.name t.name = .lt) :
    insertTerm t.coefficient t.name terms = terms ++ [t] := by
  induction terms with
  | nil =>
      rw [insertTerm, if_neg (Bool.not_eq_true _ ▸ nonzero)]
      rfl
  | cons s rest ih =>
      obtain ⟨first, later⟩ := List.forall_mem_cons.mp last
      rw [insertTerm, Std.OrientedCmp.gt_iff_lt.mpr first]
      exact congrArg (s :: ·) (ih later)

/-- An instance keeps the terms whose variables are not bound. -/
theorem instantiate_eq (ascending : Ascending e.terms) (nonzero : Nonzero e.terms)
    (a : Assignment S) : e.instantiate a =
      ⟨e.terms.filter fun t => (a.value? t.name).isNone, e.terms.foldl (settle a) e.constant⟩ := by
  have step : ∀ (terms : List (Term S)) (acc : Expression S), Ascending (acc.terms ++ terms) →
      Nonzero terms → terms.foldl (instantiateTerm a) acc =
        ⟨acc.terms ++ terms.filter fun t => (a.value? t.name).isNone,
          terms.foldl (settle a) acc.constant⟩ := by
    intro terms
    induction terms with
    | nil =>
        intro acc _ _
        exact congrArg (Expression.mk · acc.constant) (List.append_nil _).symm
    | cons t rest ih =>
        intro acc ascending nonzero
        obtain ⟨first, later⟩ := List.forall_mem_cons.mp nonzero
        rw [List.foldl_cons, List.foldl_cons, instantiateTerm, settle, List.filter_cons]
        cases a.value? t.name with
        | some v =>
            have remaining : Ascending (acc.terms ++ rest) :=
              ascending.sublist ((List.sublist_cons_self t rest).append_left _)
            exact ih (acc.shift (t.coefficient * v)) remaining later
        | none =>
            have last : ∀ s ∈ acc.terms, compare s.name t.name = .lt := fun s mem =>
              (List.pairwise_append.mp ascending).2.2 s mem t List.mem_cons_self
            have added : acc.addTerm t.coefficient t.name = ⟨acc.terms ++ [t], acc.constant⟩ :=
              congrArg (Expression.mk · acc.constant) (insertTerm_last first last)
            rw [List.append_cons] at ascending
            dsimp only
            rw [added, ih _ ascending later, List.append_assoc]
            rfl
  exact step e.terms (ofConstant e.constant) ascending nonzero

/-- The variables of an instance are those that are not bound. -/
theorem variableNames_instantiate (ascending : Ascending e.terms) (nonzero : Nonzero e.terms)
    (a : Assignment S) : (e.instantiate a).variableNames =
      e.variableNames.filter fun x => (a.value? x).isNone := by
  rw [instantiate_eq ascending nonzero, variableNames, variableNames, List.filter_map]
  rfl

/-- Where all variables are bound, evaluating adds the values of the terms in their order. -/
theorem evaluate_eq_some (bound : ∀ x ∈ e.variableNames, (a.value? x).isSome) :
    e.evaluate a = some (e.terms.foldl (settle a) e.constant) := by
  have step : ∀ (terms : List (Term S)) (c : S),
      (∀ x ∈ terms.map (·.name), (a.value? x).isSome) →
        terms.foldlM (fun acc t => (a.value? t.name).map fun v => acc + t.coefficient * v) c =
          some (terms.foldl (settle a) c) := by
    intro terms
    induction terms with
    | nil => exact fun c _ => rfl
    | cons t rest ih =>
        intro c bound
        obtain ⟨first, later⟩ := List.forall_mem_cons.mp bound
        obtain ⟨v, value⟩ := Option.isSome_iff_exists.mp first
        rw [List.foldlM_cons, List.foldl_cons, settle, value]
        exact ih _ later
  exact step e.terms e.constant bound

/-- With a variable that is not bound there is no value. -/
theorem evaluate_eq_none {x : String} (mem : x ∈ e.variableNames) (unbound : a.value? x = none) :
    e.evaluate a = none := by
  have step : ∀ (terms : List (Term S)) (c : S), x ∈ terms.map (·.name) →
      terms.foldlM (fun acc t => (a.value? t.name).map fun v => acc + t.coefficient * v) c =
        none := by
    intro terms
    induction terms with
    | nil => exact fun c mem => absurd mem List.not_mem_nil
    | cons t rest ih =>
        intro c mem
        rw [List.foldlM_cons]
        rcases List.mem_cons.mp mem with rfl | later
        · rw [unbound]
          rfl
        · cases a.value? t.name with
          | none => rfl
          | some v => exact ih _ later
  exact step e.terms e.constant mem

/-- There is a value exactly if all variables are bound. -/
theorem isSome_evaluate_iff : (e.evaluate a).isSome = true ↔
    ∀ x ∈ e.variableNames, (a.value? x).isSome = true := by
  constructor
  · intro defined x mem
    by_contra unbound
    rw [evaluate_eq_none mem (Option.not_isSome_iff_eq_none.mp unbound)] at defined
    contradiction
  · intro bound
    rw [evaluate_eq_some bound]
    rfl

/-- Nothing is left of the terms of an instance exactly if there is a value. -/
theorem isConstant_instantiate_iff (ascending : Ascending e.terms) (nonzero : Nonzero e.terms) :
    (e.instantiate a).isConstant = true ↔ (e.evaluate a).isSome = true := by
  have names : (e.instantiate a).isConstant = (e.instantiate a).variableNames.isEmpty :=
    List.isEmpty_map.symm
  rw [names, variableNames_instantiate ascending nonzero, List.isEmpty_iff, List.filter_eq_nil_iff,
    isSome_evaluate_iff]
  refine forall₂_congr fun x mem => ?_
  rw [← Option.not_isSome, Bool.not_eq_true', Bool.not_eq_false]

/-- The value is what is left. -/
theorem instantiate_eq_ofConstant (ascending : Ascending e.terms) (nonzero : Nonzero e.terms)
    {v : S} (value : e.evaluate a = some v) : e.instantiate a = ofConstant v := by
  have defined : (e.evaluate a).isSome = true := Option.isSome_iff_exists.mpr ⟨v, value⟩
  have constant := (isConstant_instantiate_iff ascending nonzero).mpr defined
  rw [evaluate_eq_some (isSome_evaluate_iff.mp defined)] at value
  have instanced := instantiate_eq ascending nonzero a
  rw [Option.some.inj value] at instanced
  rw [instanced] at constant ⊢
  exact congrArg (Expression.mk · v) (List.isEmpty_iff.mp constant)

/-- The variables of a sum are variables of its parts. -/
theorem mem_variableNames_add {x : String} {f : Expression S}
    (mem : x ∈ (e + f).variableNames) : x ∈ e.variableNames ∨ x ∈ f.variableNames := by
  have step : ∀ (terms : List (Term S)) (acc : Expression S),
      x ∈ (terms.foldl (fun acc t => acc.addTerm t.coefficient t.name) acc).variableNames →
        x ∈ acc.variableNames ∨ x ∈ terms.map (·.name) := by
    intro terms
    induction terms with
    | nil => exact fun acc mem => .inl mem
    | cons t rest ih =>
        intro acc mem
        rw [List.map_cons, List.mem_cons]
        rcases ih _ mem with earlier | later
        · exact (mem_names_insertTerm earlier).elim (fun new => .inr (.inl new)) .inl
        · exact .inr (.inr later)
  exact step f.terms (e.shift f.constant) mem

end Arithmetic

/-! ## Exact values -/

section Exact

/-- The sum of the terms where every variable has a value. -/
def weighted (value : String → ℚ) (terms : List (Term ℚ)) : ℚ :=
  (terms.map fun t => t.coefficient * value t.name).sum

/-- The value of an expression where every variable has one. -/
def under (value : String → ℚ) (e : Expression ℚ) : ℚ :=
  e.constant + weighted value e.terms

variable {value : String → ℚ} {a b : Assignment ℚ} {e f : Expression ℚ}

theorem weighted_cons (t : Term ℚ) (terms : List (Term ℚ)) :
    weighted value (t :: terms) = t.coefficient * value t.name + weighted value terms :=
  List.sum_cons

theorem weighted_insertTerm (k : ℚ) (x : String) (terms : List (Term ℚ)) :
    weighted value (insertTerm k x terms) = weighted value terms + k * value x := by
  -- A term that is left out for its coefficient adds nothing.
  have left : ∀ {c : ℚ}, Scalar.isZero c = true → c * value x = 0 := fun zero => by
    rw [isZero_rat_iff.mp zero, zero_mul]
  induction terms with
  | nil =>
      unfold insertTerm
      split_ifs with zero
      · rw [left zero, add_zero]
      · exact add_comm _ _
  | cons t rest ih =>
      unfold insertTerm
      split
      · split_ifs with zero
        · rw [left zero, add_zero]
        · rw [weighted_cons, add_comm]
      · next equal =>
          have name : t.name = x := (Std.compare_eq_iff_eq.mp equal).symm
          have sum : weighted value (t :: rest) + k * value x =
              (t.coefficient + k) * value x + weighted value rest := by
            rw [weighted_cons, name]
            ring
          dsimp only
          split_ifs with zero
          · rw [sum, left zero, zero_add]
          · rw [sum, weighted_cons]
      · rw [weighted_cons, weighted_cons, ih, add_assoc]

theorem under_add : (e + f).under value = e.under value + f.under value := by
  have step : ∀ (terms : List (Term ℚ)) (acc : Expression ℚ),
      (terms.foldl (fun acc t => acc.addTerm t.coefficient t.name) acc).under value =
        acc.under value + weighted value terms := by
    intro terms
    induction terms with
    | nil => exact fun acc => (add_zero _).symm
    | cons t rest ih =>
        intro acc
        have added : (acc.addTerm t.coefficient t.name).under value =
            acc.under value + t.coefficient * value t.name := by
          rw [under, under, add_assoc]
          exact congrArg (acc.constant + ·) (weighted_insertTerm _ _ _)
        rw [List.foldl_cons, ih, added, weighted_cons, add_assoc]
  calc
    (e + f).under value = (e.shift f.constant).under value + weighted value f.terms :=
      step f.terms (e.shift f.constant)
    _ = e.under value + f.under value := by
      change e.constant + f.constant + weighted value e.terms + weighted value f.terms =
        e.constant + weighted value e.terms + (f.constant + weighted value f.terms)
      ring

theorem under_shift (k : ℚ) : (e.shift k).under value = e.under value + k :=
  add_right_comm _ _ _

theorem under_scale (k : ℚ) : (e.scale k).under value = e.under value * k := by
  unfold scale
  split_ifs with zero
  · have zero' : (Scalar.zero : ℚ) = 0 := Nat.cast_zero
    rw [isZero_rat_iff.mp zero, mul_zero, ofConstant, zero', under]
    exact add_zero 0
  · have terms : weighted value (e.terms.map fun t => { t with coefficient := t.coefficient * k }) =
        weighted value e.terms * k := by
      rw [weighted, weighted, List.map_map, ← List.sum_map_mul_right]
      exact congrArg List.sum (List.map_congr_left fun t _ => mul_right_comm _ _ _)
    rw [under, under, add_mul, terms]

theorem under_neg : (-e).under value = -e.under value := by
  change (e.scale (-Scalar.one)).under value = _
  rw [under_scale, scalar_one_rat, mul_neg_one]

theorem under_sub : (e - f).under value = e.under value - f.under value := by
  change (e + -f).under value = _
  rw [under_add, under_neg, sub_eq_add_neg]

/-- The value that an assignment gives to a variable, zero if it gives none. -/
def valueOf (a : Assignment ℚ) (x : String) : ℚ :=
  (a.value? x).getD 0

theorem foldl_settle (a : Assignment ℚ) (terms : List (Term ℚ)) (c : ℚ) :
    terms.foldl (settle a) c = c + weighted (valueOf a) terms := by
  induction terms generalizing c with
  | nil => exact (add_zero c).symm
  | cons t rest ih =>
      have settled : settle a c t = c + t.coefficient * valueOf a t.name := by
        rw [settle, valueOf]
        cases a.value? t.name with
        | some v => rfl
        | none => rw [Option.getD_none, mul_zero, add_zero]
      rw [List.foldl_cons, ih, settled, weighted_cons, add_assoc]

theorem evaluate_eq_under (bound : ∀ x ∈ e.variableNames, (a.value? x).isSome) :
    e.evaluate a = some (e.under (valueOf a)) := by
  rw [evaluate_eq_some bound, foldl_settle]
  rfl

/-- The terms with bound variables and the others, each with its value. -/
theorem weighted_extendedBy (a b : Assignment ℚ) (terms : List (Term ℚ)) :
    weighted (valueOf (a.extendedBy b)) terms = weighted (valueOf a) terms +
      weighted (valueOf b) (terms.filter fun t => (a.value? t.name).isNone) := by
  induction terms with
  | nil => exact (add_zero 0).symm
  | cons t rest ih =>
      rw [List.filter_cons, weighted_cons, weighted_cons, ih, valueOf, valueOf]
      cases value : a.value? t.name with
      | some v =>
          rw [Assignment.extendedBy_of_bound value, Option.isNone_some, if_neg Bool.false_ne_true,
            add_assoc]
      | none =>
          rw [Assignment.extendedBy_of_unbound value, if_pos Option.isNone_none, weighted_cons, valueOf,
            Option.getD_none, mul_zero, zero_add, add_left_comm]

/-- Binding variables in two steps is binding them in one. -/
theorem evaluate_instantiate_eq (ascending : Ascending e.terms) (nonzero : Nonzero e.terms)
    (a b : Assignment ℚ) : (e.instantiate a).evaluate b = e.evaluate (a.extendedBy b) := by
  have names := variableNames_instantiate ascending nonzero a
  by_cases bound : ∀ x ∈ e.variableNames, ((a.extendedBy b).value? x).isSome
  · have later : ∀ x ∈ (e.instantiate a).variableNames, (b.value? x).isSome := by
      intro x mem
      rw [names, List.mem_filter, Option.isNone_iff_eq_none] at mem
      rw [← Assignment.extendedBy_of_unbound mem.2]
      exact bound x mem.1
    rw [evaluate_eq_under later, evaluate_eq_under bound, instantiate_eq ascending nonzero, under,
      under, foldl_settle, weighted_extendedBy, add_assoc]
  · push Not at bound
    obtain ⟨x, mem, unbound⟩ := bound
    obtain ⟨first, second⟩ := Option.or_eq_none_iff.mp (Option.not_isSome_iff_eq_none.mp unbound)
    have kept : x ∈ (e.instantiate a).variableNames := by
      rw [names]
      exact List.mem_filter.mpr ⟨mem, Option.isNone_iff_eq_none.mpr first⟩
    rw [evaluate_eq_none kept second, evaluate_eq_none mem (Option.not_isSome_iff_eq_none.mp unbound)]

/-- Where all variables are bound, evaluating is linear. -/
theorem evaluate_linear (bound : ∀ x, x ∈ e.variableNames ∨ x ∈ f.variableNames →
    (a.value? x).isSome = true) : ∃ v w, e.evaluate a = some v ∧ f.evaluate a = some w ∧
      (e + f).evaluate a = some (v + w) ∧ (e - f).evaluate a = some (v - w) ∧
      (-e).evaluate a = some (-v) ∧
      ∀ k, (e.shift k).evaluate a = some (v + k) ∧ (e.scale k).evaluate a = some (v * k) := by
  have left : ∀ x ∈ e.variableNames, (a.value? x).isSome = true := fun x mem => bound x (.inl mem)
  have right : ∀ x ∈ f.variableNames, (a.value? x).isSome = true := fun x mem => bound x (.inr mem)
  refine ⟨e.under (valueOf a), f.under (valueOf a), evaluate_eq_under left,
    evaluate_eq_under right, ?_, ?_, ?_, fun k => ⟨?_, ?_⟩⟩
  · rw [← under_add]
    exact evaluate_eq_under fun x mem => bound x (mem_variableNames_add mem)
  · rw [← under_sub]
    exact evaluate_eq_under fun x mem =>
      bound x ((mem_variableNames_add mem).imp_right mem_variableNames_neg)
  · rw [← under_neg]
    exact evaluate_eq_under fun x mem => left x (mem_variableNames_neg mem)
  · rw [← under_shift]
    exact evaluate_eq_under left
  · rw [← under_scale]
    exact evaluate_eq_under fun x mem => left x (mem_variableNames_scale mem)

/-! ## All expressions that can be built -/

namespace Build

/-- Over the rational numbers no step brings a zero in front of a variable. -/
theorem keepsNonzero_rat (b : Build ℚ) : b.KeepsNonzero := by
  have product : ∀ {x y : ℚ}, Scalar.isZero x = false → Scalar.isZero y = false →
      Scalar.isZero (x * y) = false := by
    intro x y left right
    rw [← Bool.not_eq_true, isZero_rat_iff] at left right ⊢
    exact mul_ne_zero left right
  exact ⟨by decide, fun x nonzero => product nonzero (by decide),
    fun p k _ t _ nonzero factor => product nonzero factor⟩

theorem nonzero_run_rat (b : Build ℚ) : Nonzero b.run.terms :=
  nonzero_onWay (fun p _ => p.keepsNonzero_rat) b .refl

/-- Whatever the arithmetic is, an expression without zeros in front of its variables has a value
exactly if binding the variables leaves a constant, which is the value.  Over the rational numbers
evaluating is linear where all variables are bound, an instance keeps exactly the variables that are
not bound, and evaluating it is evaluating the expression under both assignments. -/
theorem instantiate_evaluates :
    (∀ (S : Type) [Scalar S] (e : Build S) (a : Assignment S), Nonzero e.run.terms →
      ((e.run.instantiate a).isConstant = true ↔ (e.run.evaluate a).isSome = true) ∧
        ∀ v, e.run.evaluate a = some v → e.run.instantiate a = .ofConstant v) ∧
      ∀ (e f : Build ℚ) (a : Assignment ℚ),
        ((∀ x, x ∈ e.run.variableNames ∨ x ∈ f.run.variableNames → (a.value? x).isSome = true) →
          ∃ v w, e.run.evaluate a = some v ∧ f.run.evaluate a = some w ∧
            (e.run + f.run).evaluate a = some (v + w) ∧
            (e.run - f.run).evaluate a = some (v - w) ∧ (-e.run).evaluate a = some (-v) ∧
            ∀ k, (e.run.shift k).evaluate a = some (v + k) ∧
              (e.run.scale k).evaluate a = some (v * k)) ∧
        (∀ b, (e.run.instantiate a).evaluate b = e.run.evaluate (a.extendedBy b)) ∧
        (e.run.instantiate a).variableNames =
          e.run.variableNames.filter fun x => (a.value? x).isNone := by
  constructor
  · intro S _ e a nonzero
    exact ⟨isConstant_instantiate_iff e.ascending_run nonzero,
      fun v value => instantiate_eq_ofConstant e.ascending_run nonzero value⟩
  · intro e f a
    exact ⟨evaluate_linear, evaluate_instantiate_eq e.ascending_run e.nonzero_run_rat a,
      variableNames_instantiate e.ascending_run e.nonzero_run_rat a⟩

/-- `2 * x + y`. -/
def doubled : Build ℚ :=
  .add (.scale (.ofVariable "x") 2) (.ofVariable "y")

/-- `x = 1/2` and `y = 3`. -/
def halfAndThree : Assignment ℚ :=
  .ofList [("x", 1 / 2), ("y", 3)]

/-- With both variables bound, a constant is left of `2 * x + y`, and twice the value is the value
of the double. -/
theorem instantiate_evaluates_doubled :
    doubled.run.instantiate halfAndThree = .ofConstant 4 ∧
      (doubled.run + doubled.run).evaluate halfAndThree = some (4 + 4) := by
  have value : doubled.run.evaluate halfAndThree = some 4 := by decide +kernel
  have bound : ∀ x, x ∈ doubled.run.variableNames ∨ x ∈ doubled.run.variableNames →
      (halfAndThree.value? x).isSome = true := by
    have names : ∀ x ∈ doubled.run.variableNames, (halfAndThree.value? x).isSome = true := by
      decide +kernel
    exact fun x mem => names x (or_self_iff.mp mem)
  obtain ⟨v, w, first, second, sum, -⟩ :=
    (instantiate_evaluates.2 doubled doubled halfAndThree).1 bound
  obtain rfl := Option.some.inj (first.symm.trans value)
  obtain rfl := Option.some.inj (second.symm.trans value)
  exact ⟨(instantiate_evaluates.1 ℚ doubled halfAndThree (by decide +kernel)).2 4 value, sum⟩

end Build

end Exact

end Expression

end QuantumCircuit
