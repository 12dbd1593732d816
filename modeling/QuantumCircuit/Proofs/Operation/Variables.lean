import QuantumCircuit.Operation.Qubits
import QuantumCircuit.Proofs.Operation.Blocks

/-!
# Variables of operations

Adjoints and instances of an operation refer to no variable that the operation does not refer to,
and renaming its qubits leaves its variables.  An instance refers to no variable that was bound,
except under conditions: operations there are left alone, so their variables all remain.
-/

namespace QuantumCircuit

variable {S : Type} [Scalar S] {x : String} {a : Assignment S}

/-! ## Expressions -/

namespace Expression

theorem mem_names_insertTerm {k : S} {y : String} {terms : List (Term S)}
    (mem : x ∈ (insertTerm k y terms).map (·.name)) : x = y ∨ x ∈ terms.map (·.name) := by
  induction terms with
  | nil =>
      unfold insertTerm at mem
      split_ifs at mem
      · contradiction
      · exact .inl (List.mem_singleton.mp mem)
  | cons t rest ih =>
      unfold insertTerm at mem
      simp only [List.map_cons, List.mem_cons] at ih ⊢
      split at mem
      · split_ifs at mem
        · exact .inr (List.mem_cons.mp mem)
        · exact (List.mem_cons.mp mem).imp_right List.mem_cons.mp
      · dsimp only at mem
        split_ifs at mem
        · exact .inr (.inr mem)
        · exact (List.mem_cons.mp mem).imp_right .inr
      · rcases List.mem_cons.mp mem with first | later
        · exact .inr (.inl first)
        · exact (ih later).imp_right .inr

/-- An instance refers to the variables that are not bound, or to some of them. -/
theorem mem_variableNames_instantiate {e : Expression S}
    (mem : x ∈ (e.instantiate a).variableNames) : x ∈ e.variableNames ∧ a.value? x = none := by
  have step : ∀ (terms : List (Term S)) (acc : Expression S),
      x ∈ (terms.foldl (instantiateTerm a) acc).variableNames →
        x ∈ acc.variableNames ∨ (x ∈ terms.map (·.name) ∧ a.value? x = none) := by
    intro terms
    induction terms with
    | nil => exact fun acc mem => .inl mem
    | cons t rest ih =>
        intro acc mem
        rw [List.map_cons, List.mem_cons]
        rcases ih _ mem with first | ⟨later, unbound⟩
        · unfold instantiateTerm at first
          cases value : a.value? t.name with
          | some v =>
              rw [value] at first
              exact .inl first
          | none =>
              rw [value] at first
              rcases mem_names_insertTerm first with rfl | old
              · exact .inr ⟨.inl rfl, value⟩
              · exact .inl old
        · exact .inr ⟨.inr later, unbound⟩
  exact (step e.terms (ofConstant e.constant) mem).resolve_left List.not_mem_nil

theorem mem_variableNames_scale {e : Expression S} {k : S}
    (mem : x ∈ (e.scale k).variableNames) : x ∈ e.variableNames := by
  unfold scale at mem
  split_ifs at mem
  · contradiction
  · simpa only [variableNames, List.map_map, Function.comp_def] using mem

theorem mem_variableNames_neg {e : Expression S} (mem : x ∈ e.neg.variableNames) :
    x ∈ e.variableNames :=
  mem_variableNames_scale mem

end Expression

/-! ## Parameters and gates -/

namespace Parameter

theorem mem_variableNames_instantiate {p : Parameter S}
    (mem : x ∈ (p.instantiate a).variableNames) : x ∈ p.variableNames ∧ a.value? x = none := by
  cases p with
  | number v => contradiction
  | symbol e =>
      simp only [instantiate, ofExpression] at mem
      split_ifs at mem
      · contradiction
      · exact Expression.mem_variableNames_instantiate mem

theorem mem_variableNames_negated {p : Parameter S} (mem : x ∈ p.negated.variableNames) :
    x ∈ p.variableNames := by
  cases p with
  | number v => contradiction
  | symbol e => exact Expression.mem_variableNames_neg mem

theorem variableNames_shifted (p : Parameter S) (k : S) :
    (p.shifted k).variableNames = p.variableNames := by
  cases p <;> rfl

end Parameter

namespace Gate

omit [Scalar S] in
theorem mem_variableNames {g : Gate (Parameter S)} :
    x ∈ g.variableNames ↔ ∃ p ∈ g.params, x ∈ p.variableNames :=
  List.mem_flatMap

theorem mem_variableNames_instantiate {g : Gate (Parameter S)}
    (mem : x ∈ (g.instantiate a).variableNames) : x ∈ g.variableNames ∧ a.value? x = none := by
  rcases mem_variableNames.mp mem with ⟨_, member, named⟩
  rcases List.mem_map.mp member with ⟨p, original, rfl⟩
  rcases Parameter.mem_variableNames_instantiate named with ⟨old, unbound⟩
  exact ⟨mem_variableNames.mpr ⟨p, original, old⟩, unbound⟩

/-- Each parameter of an adjoint refers to variables of one parameter. -/
theorem exists_of_mem_invertParams {kind : OpKind} {params : List (Parameter S)} {p : Parameter S}
    (mem : p ∈ invertParams kind params) :
    ∃ q ∈ params, ∀ x ∈ p.variableNames, x ∈ q.variableNames := by
  have negated : ∀ q : Parameter S, ∀ x ∈ q.negated.variableNames, x ∈ q.variableNames :=
    fun _ _ => Parameter.mem_variableNames_negated
  have shifted : ∀ (q : Parameter S) (k : S), ∀ x ∈ (q.negated.shifted k).variableNames,
      x ∈ q.variableNames := by
    intro q k x mem
    rw [Parameter.variableNames_shifted] at mem
    exact negated q x mem
  have first : ∀ {theta : Parameter S} {rest : List (Parameter S)},
      p ∈ theta.negated :: rest →
        ∃ q ∈ theta :: rest, ∀ x ∈ p.variableNames, x ∈ q.variableNames := by
    intro theta rest mem
    rcases List.mem_cons.mp mem with rfl | later
    · exact ⟨theta, List.mem_cons_self, negated theta⟩
    · exact ⟨p, List.mem_cons_of_mem _ later, fun _ => id⟩
  unfold invertParams at mem
  split at mem
  case h_1 theta phi lambda =>
    simp only [List.mem_cons, List.not_mem_nil, or_false] at mem
    rcases mem with rfl | rfl | rfl
    · exact ⟨theta, by simp, negated theta⟩
    · exact ⟨lambda, by simp, negated lambda⟩
    · exact ⟨phi, by simp, negated phi⟩
  case h_2 phi lambda =>
    simp only [List.mem_cons, List.not_mem_nil, or_false] at mem
    rcases mem with rfl | rfl
    · exact ⟨lambda, by simp, shifted lambda _⟩
    · exact ⟨phi, by simp, shifted phi _⟩
  case h_13 => exact ⟨p, mem, fun _ => id⟩
  -- All other rules invert the first parameter only.
  all_goals exact first mem

theorem mem_variableNames_invert {g : Gate (Parameter S)} (mem : x ∈ g.invert.variableNames) :
    x ∈ g.variableNames := by
  rcases mem_variableNames.mp mem with ⟨p, member, named⟩
  rcases exists_of_mem_invertParams member with ⟨q, original, names⟩
  exact mem_variableNames.mpr ⟨q, original, names x named⟩

end Gate

/-! ## Operations -/

namespace Operation

omit [Scalar S] in
theorem mem_allVariableNames {ops : List (Operation S)} :
    x ∈ allVariableNames ops ↔ ∃ op ∈ ops, x ∈ op.variableNames := by
  induction ops with
  | nil => simp [allVariableNames]
  | cons op ops ih => simp [allVariableNames, ih]

mutual

/-- The variables that stand under a condition, also in blocks. -/
def conditionedVariables : Operation S → List String
  | .standard _ => []
  | .symbolic _ => []
  | .nonUnitary _ => []
  | .conditioned op _ => op.variableNames
  | .compound ops => allConditionedVariables ops
termination_by structural op => op

/-- The variables that stand under a condition in a list. -/
def allConditionedVariables : List (Operation S) → List String
  | [] => []
  | op :: ops => op.conditionedVariables ++ allConditionedVariables ops
termination_by structural ops => ops

end

mutual

/-- What an instance refers to was referred to before, and is not bound or stands under a
condition. -/
theorem mem_variableNames_instantiate : ∀ {op : Operation S},
    x ∈ (op.instantiate a).variableNames →
      x ∈ op.variableNames ∧ (a.value? x = none ∨ x ∈ op.conditionedVariables)
  | .standard _, mem => nomatch mem
  | .symbolic _, mem => (Gate.mem_variableNames_instantiate mem).imp_right .inl
  | .nonUnitary _, mem => nomatch mem
  | .conditioned _ _, mem => ⟨mem, .inr mem⟩
  | .compound _, mem => mem_allVariableNames_instantiateAll mem

theorem mem_allVariableNames_instantiateAll : ∀ {ops : List (Operation S)},
    x ∈ allVariableNames (instantiateAll a ops) →
      x ∈ allVariableNames ops ∧ (a.value? x = none ∨ x ∈ allConditionedVariables ops)
  | [], mem => nomatch mem
  | op :: ops, mem => by
      rw [allVariableNames, allConditionedVariables, List.mem_append, List.mem_append]
      rcases List.mem_append.mp mem with first | later
      · rcases mem_variableNames_instantiate first with ⟨old, left⟩
        exact ⟨.inl old, left.imp_right .inl⟩
      · rcases mem_allVariableNames_instantiateAll later with ⟨old, left⟩
        exact ⟨.inr old, left.imp_right .inr⟩

end

mutual

/-- What stands under a condition stays there. -/
theorem mem_instantiate_of_conditioned : ∀ {op : Operation S}, x ∈ op.conditionedVariables →
    x ∈ (op.instantiate a).variableNames
  | .conditioned _ _, mem => mem
  | .compound _, mem => mem_instantiateAll_of_conditioned mem

theorem mem_instantiateAll_of_conditioned : ∀ {ops : List (Operation S)},
    x ∈ allConditionedVariables ops → x ∈ allVariableNames (instantiateAll a ops)
  | _ :: _, mem => List.mem_append.mpr <| (List.mem_append.mp mem).imp
      mem_instantiate_of_conditioned mem_instantiateAll_of_conditioned

end

section Renaming

omit [Scalar S]

mutual

theorem variableNames_remap (f : Nat → Nat) : ∀ op : Operation S,
    (op.remap f).variableNames = op.variableNames
  | .standard _ => rfl
  | .symbolic _ => rfl
  | .nonUnitary _ => rfl
  | .conditioned op _ => variableNames_remap f op
  | .compound ops => allVariableNames_remapAll f ops

/-- Renaming qubits leaves the variables. -/
theorem allVariableNames_remapAll (f : Nat → Nat) : ∀ ops : List (Operation S),
    allVariableNames (remapAll f ops) = allVariableNames ops
  | [] => rfl
  | op :: ops => by
      rw [remapAll, allVariableNames, allVariableNames, variableNames_remap f op,
        allVariableNames_remapAll f ops]

end

end Renaming

mutual

theorem mem_variableNames_invert : ∀ op : Operation S, x ∈ op.invert.variableNames →
    x ∈ op.variableNames
  | .standard _, mem => nomatch mem
  | .symbolic _, mem => Gate.mem_variableNames_invert mem
  | .nonUnitary _, mem => nomatch mem
  | .conditioned op _, mem => mem_variableNames_invert op mem
  | .compound ops, mem => mem_allVariableNames_invertAll ops mem

/-- An adjoint refers to no new variable. -/
theorem mem_allVariableNames_invertAll : ∀ ops : List (Operation S),
    x ∈ allVariableNames (invertAll ops) → x ∈ allVariableNames ops
  | [], mem => nomatch mem
  | op :: ops, mem => by
      have split : invertAll (op :: ops) = invertAll ops ++ [op.invert] := by
        rw [invertAll, invertEach, List.reverse_cons]
        rfl
      rw [split, allVariableNames_append] at mem
      rcases List.mem_append.mp mem with later | first
      · exact List.mem_append_right _ (mem_allVariableNames_invertAll ops later)
      · rw [allVariableNames, allVariableNames, List.append_nil] at first
        exact List.mem_append_left _ (mem_variableNames_invert op first)

end

end Operation

end QuantumCircuit
