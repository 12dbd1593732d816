import QuantumCircuit.Circuit.Transform
import QuantumCircuit.Proofs.Rationals

/-!
# Instances of inverse circuits

Inverting a circuit with some of its variables bound is binding them in the inverse circuit.
Binding leaves the layouts, and with them the decision whether they change places; inverting leaves
the recorded variables.  So all that is to be shown is about operations, and there it takes exact
arithmetic: with rounding the two orders can add up the same numbers differently.
-/

namespace QuantumCircuit.Circuit

theorem invert_instantiate {S : Type} [Scalar S] (exact : Scalar.ExactSums S) (c : Circuit S)
    (a : Assignment S) : (c.instantiate a).invert = c.invert.instantiate a := by
  have ops := Operation.invertAll_instantiateAll exact a c.ops
  by_cases same : c.initialLayout.size = c.outputPermutation.size
  · simp only [invert, instantiate, same, if_true, ops]
  · simp only [invert, instantiate, same, if_false, ops]

/-- Over the rational numbers, binding variables and inverting can change places: the operations are
the same, with their parameters, and so are the layouts, the recorded variables and everything
else.  The assignment may bind all variables, some of them, or none. -/
theorem instantiate_then_invert (c : Circuit ℚ) (a : Assignment ℚ) :
    (c.instantiate a).invert = c.invert.instantiate a :=
  invert_instantiate exactSums_rat c a

end QuantumCircuit.Circuit
