import QuantumCircuit.Proofs.Decimal.Underflow
import QuantumCircuit.Proofs.Expression.Build

/-!
# Zeros in front of variables

With floating-point numbers a multiplication can leave a term with the coefficient zero, as it does
not merge terms: that is so if the product of a coefficient and a number is rounded to zero although
neither of them is.  Nothing else brings a zero in front of a variable.
-/

namespace QuantumCircuit.Expression

open Binary64

/-- Multiplying by a number multiplies the coefficients, unless the number is zero. -/
theorem mem_terms_scale {S : Type} [Scalar S] {e : Expression S} {k : S} {t : Term S}
    (nonzero : Scalar.isZero k = false) (mem : t ∈ e.terms) :
    { t with coefficient := t.coefficient * k } ∈ (e.scale k).terms := by
  rw [scale, if_neg (Bool.not_eq_true _ ▸ nonzero)]
  exact List.mem_map_of_mem mem

namespace Build

/-- A step brings no zero with it unless it is a multiplication with a product that underflows. -/
theorem keepsNonzero_of_not_underflows {b : Build Float}
    (kept : ∀ p k, b = scale p k → ∀ t ∈ p.run.terms, ¬ Underflows t.coefficient k) :
    b.KeepsNonzero where
  one := by decide +kernel
  sign x nonzero := (isZero_mul_neg_one x).trans nonzero
  product p k isScale t mem nonzero factor := by
    rw [← Bool.not_eq_true, isZero_mul_iff nonzero factor]
    exact kept p k isScale t mem

/-- The terms of an expression ascend by their variables, whatever it is built from.  It is without
zeros in front of variables, as are all expressions on the way to it, exactly if no product of a
coefficient and a number underflows where an expression is multiplied. -/
theorem nonzero_iff_not_underflows (b : Build Float) :
    Ascending b.run.terms ∧ ((∀ p, OnWay p b → Nonzero p.run.terms) ↔
      ∀ p k, OnWay (scale p k) b → ∀ t ∈ p.run.terms, ¬ Underflows t.coefficient k) := by
  refine ⟨b.ascending_run, fun nonzero p k way t mem under => ?_, fun kept => ?_⟩
  · have factor := isZero_eq_false_of_value under.right
    have product := nonzero (scale p k) way _ (mem_terms_scale factor mem)
    rw [(isZero_mul_iff (isZero_eq_false_of_value under.left) factor).mpr under] at product
    contradiction
  · refine nonzero_onWay fun p way => keepsNonzero_of_not_underflows ?_
    rintro q k rfl
    exact kept q k way

/-- Whether all numbers that an expression is built from are finite. -/
def FiniteInputs : Build Float → Prop
  | ofConstant c => c.isFinite = true
  | ofVariable _ => True
  | addTerm b k _ | shift b k | scale b k => b.FiniteInputs ∧ k.isFinite = true
  | add b c | sub b c => b.FiniteInputs ∧ c.FiniteInputs
  | neg b => b.FiniteInputs
  | instantiate b a => b.FiniteInputs ∧ ∀ x v, a.value? x = some v → v.isFinite = true

/-- A variable multiplied by `2^(-600)` twice. -/
def twiceScaled : Build Float :=
  scale (scale (ofVariable "x") (.ofBits 0x1A70000000000000)) (.ofBits 0x1A70000000000000)

/-- The variable remains, with the coefficient zero. -/
theorem not_nonzero_twiceScaled :
    ¬ ∀ b : Build Float, b.FiniteInputs → Ascending b.run.terms ∧ Nonzero b.run.terms := by
  intro always
  have finite : twiceScaled.FiniteInputs := ⟨⟨trivial, by decide +kernel⟩, by decide +kernel⟩
  have zero : ¬ Nonzero twiceScaled.run.terms := by decide +kernel
  exact zero (always twiceScaled finite).2

end Build

end QuantumCircuit.Expression
