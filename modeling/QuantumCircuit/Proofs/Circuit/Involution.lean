import QuantumCircuit.Circuit.Transform
import QuantumCircuit.Proofs.Decimal.Signs

/-!
# Inverting twice

Inverting a circuit twice gives the circuit back, without any rounding, unless a `u2` gate with two
angles occurs.  The layouts change places twice or, if they differ in size, not at all.
-/

namespace QuantumCircuit.Circuit

/-- Inverting twice has an effect on the operations at most. -/
theorem invert_invert_eq {S : Type} [Scalar S] (c : Circuit S) :
    c.invert.invert = { c with ops := Operation.invertAll (Operation.invertAll c.ops) } := by
  by_cases same : c.initialLayout.size = c.outputPermutation.size
  · simp only [invert, same, if_true]
  · simp only [invert, same, if_false]

/-- If no `u2` gate with exactly two angles occurs, not under conditions and not in blocks either, a
circuit is the inverse of its inverse: with all of its operations, in their order, and their angles
bit by bit, and with both layouts. -/
theorem invert_twice_restores {c : Circuit Float} (other : Operation.anyTwoAngleU2 c.ops = false) :
    c.invert.invert = c := by
  rw [invert_invert_eq, Operation.invertAll_invertAll,
    Operation.map_invert_invert Binary64.exactSigns_float other]

/-- A block under a condition, with a gate that has a tiny angle and a negative zero, beside a `u2`
gate with an expression for its only angle and a double controlled X with one target. -/
theorem invert_twice_restores_nested :
    let angles : Gate Float := ⟨.u, .ofList [⟨1, .negative⟩], [0], [5e-324, -0.0, 0.1]⟩
    let symbolic : Gate (Parameter Float) :=
      ⟨.u2, .empty, [1], [.symbol ⟨[⟨0.1, "x"⟩], 0.2⟩]⟩
    let block : Operation Float :=
      .compound [.standard angles, .symbolic symbolic, .standard ⟨.dcx, .empty, [0], []⟩]
    let c : Circuit Float :=
      { (blank Config.default).insertQubits 2 "q" with
        ops := [.conditioned block ⟨⟨0, 1⟩, 1, .eq⟩, .standard ⟨.iswap, .empty, [0, 1], []⟩]
        outputPermutation := .ofList [(0, 1), (1, 0)] }
    Operation.anyTwoAngleU2 c.ops = false ∧ c.invert.invert = c := by
  intro angles symbolic block c
  have other : Operation.anyTwoAngleU2 c.ops = false := rfl
  exact ⟨other, invert_twice_restores other⟩

end QuantumCircuit.Circuit
