import QuantumCircuit.Proofs.Operation.Variables

/-!
# Ways to build an expression

An expression comes from constants and variables by the operations on expressions; the inductive
type of such ways is what a statement about all expressions ranges over.  Whatever the scalars are,
the terms of an expression that is built are in strictly ascending order of their variables.  No
operation but multiplying puts a zero in front of a variable, as the others merge terms.
-/

namespace QuantumCircuit.Expression

/-- A way to build an expression. -/
inductive Build (S : Type) where
  /-- A constant. -/
  | ofConstant (c : S)
  /-- A variable. -/
  | ofVariable (x : String)
  /-- Adding a term. -/
  | addTerm (b : Build S) (k : S) (x : String)
  /-- The sum of two expressions. -/
  | add (b c : Build S)
  /-- The difference of two expressions. -/
  | sub (b c : Build S)
  /-- The opposite sign. -/
  | neg (b : Build S)
  /-- Adding a number. -/
  | shift (b : Build S) (k : S)
  /-- Multiplying by a number. -/
  | scale (b : Build S) (k : S)
  /-- Replacing variables by values. -/
  | instantiate (b : Build S) (a : Assignment S)

variable {S : Type} [Scalar S]

/-- The expression that is built. -/
def Build.run : Build S → Expression S
  | ofConstant c => .ofConstant c
  | ofVariable x => .ofVariable x
  | addTerm b k x => b.run.addTerm k x
  | add b c => b.run + c.run
  | sub b c => b.run - c.run
  | neg b => -b.run
  | shift b k => b.run.shift k
  | scale b k => b.run.scale k
  | instantiate b a => b.run.instantiate a

namespace Build

/-- The ways to build what the last step combines. -/
def operands : Build S → List (Build S)
  | ofConstant _ | ofVariable _ => []
  | addTerm b _ _ | neg b | shift b _ | scale b _ | instantiate b _ => [b]
  | add b c | sub b c => [b, c]

/-- Whether an expression is built on the way to another one, which is on the way to itself. -/
def OnWay (p b : Build S) : Prop :=
  Relation.ReflTransGen (fun p b => p ∈ b.operands) p b

omit [Scalar S] in
/-- What the last step keeps holds of every way to build an expression. -/
theorem induction_operands {P : Build S → Prop} (step : ∀ b, (∀ p ∈ b.operands, P p) → P b)
    (b : Build S) : P b := by
  induction b with
  | ofConstant _ | ofVariable _ => exact step _ (List.forall_mem_nil _)
  | addTerm _ _ _ ih | neg _ ih | shift _ _ ih | scale _ _ ih | instantiate _ _ ih =>
      exact step _ (List.forall_mem_singleton.mpr ih)
  | add _ _ ihb ihc | sub _ _ ihb ihc =>
      exact step _ (List.forall_mem_cons.mpr ⟨ihb, List.forall_mem_singleton.mpr ihc⟩)

end Build

/-! ## What merging a term keeps -/

section Merging

variable {P : List (Term S) → Prop}

/-- What merging a term keeps, adding an expression keeps. -/
theorem foldl_addTerm_keeps (merge : ∀ k x terms, P terms → P (insertTerm k x terms))
    (terms : List (Term S)) {e : Expression S} (holds : P e.terms) :
    P (terms.foldl (fun acc t => acc.addTerm t.coefficient t.name) e).terms := by
  induction terms generalizing e with
  | nil => exact holds
  | cons t rest ih => exact ih (merge _ _ _ holds)

/-- What merging a term keeps holds of an instance, as its terms are merged one by one. -/
theorem instantiate_keeps (nil : P []) (merge : ∀ k x terms, P terms → P (insertTerm k x terms))
    (a : Assignment S) (e : Expression S) : P (e.instantiate a).terms := by
  have step : ∀ (terms : List (Term S)) (acc : Expression S), P acc.terms →
      P (terms.foldl (instantiateTerm a) acc).terms := by
    intro terms
    induction terms with
    | nil => exact fun acc holds => holds
    | cons t rest ih =>
        intro acc holds
        apply ih
        unfold instantiateTerm
        cases a.value? t.name with
        | some v => exact holds
        | none => exact merge _ _ _ holds
  exact step e.terms _ nil

end Merging

/-! ## The order of terms -/

/-- Terms by strictly ascending variable, so that no variable occurs twice. -/
def Ascending (terms : List (Term S)) : Prop :=
  terms.Pairwise fun s t => compare s.name t.name = .lt

instance (terms : List (Term S)) : Decidable (Ascending terms) :=
  inferInstanceAs (Decidable (terms.Pairwise _))

theorem ascending_insertTerm (k : S) (x : String) (terms : List (Term S))
    (ascending : Ascending terms) : Ascending (insertTerm k x terms) := by
  induction terms with
  | nil =>
      unfold insertTerm
      split_ifs
      · exact .nil
      · exact List.pairwise_singleton _ _
  | cons t rest ih =>
      obtain ⟨first, later⟩ := List.pairwise_cons.mp ascending
      unfold insertTerm
      split
      · next less =>
          split_ifs
          · exact ascending
          · refine List.pairwise_cons.mpr ⟨fun s mem => ?_, ascending⟩
            rcases List.mem_cons.mp mem with rfl | mem
            · exact less
            · exact Std.TransCmp.lt_trans less (first s mem)
      · next equal =>
          obtain rfl : x = t.name := Std.compare_eq_iff_eq.mp equal
          dsimp only
          split_ifs
          · exact later
          · exact List.pairwise_cons.mpr ⟨first, later⟩
      · next greater =>
          have less : compare t.name x = .lt := Std.OrientedCmp.gt_iff_lt.mp greater
          refine List.pairwise_cons.mpr ⟨fun s mem => ?_, ih later⟩
          rcases mem_names_insertTerm (List.mem_map_of_mem mem) with isNew | old
          · rwa [isNew]
          · obtain ⟨r, member, name⟩ := List.mem_map.mp old
            rw [← name]
            exact first r member

theorem ascending_scale (k : S) {e : Expression S} (ascending : Ascending e.terms) :
    Ascending (e.scale k).terms := by
  unfold scale
  split_ifs
  · exact .nil
  · exact List.pairwise_map.mpr ascending

/-- The terms of an expression that is built ascend. -/
theorem Build.ascending_run (b : Build S) : Ascending b.run.terms := by
  induction b with
  | ofConstant c => exact .nil
  | ofVariable x => exact List.pairwise_singleton _ _
  | addTerm b k x ih => exact ascending_insertTerm k x _ ih
  | add b c ihb _ => exact foldl_addTerm_keeps ascending_insertTerm _ ihb
  | sub b c ihb _ => exact foldl_addTerm_keeps ascending_insertTerm _ ihb
  | neg b ih => exact ascending_scale _ ih
  | shift b k ih => exact ih
  | scale b k ih => exact ascending_scale k ih
  | instantiate b a _ => exact instantiate_keeps .nil ascending_insertTerm a b.run

/-! ## Zeros in front of variables -/

/-- No coefficient is zero. -/
def Nonzero (terms : List (Term S)) : Prop :=
  ∀ t ∈ terms, Scalar.isZero t.coefficient = false

instance (terms : List (Term S)) : Decidable (Nonzero terms) :=
  inferInstanceAs (Decidable (∀ t ∈ terms, Scalar.isZero t.coefficient = false))

/-- A term that is merged, or a new one, is left out if its coefficient is zero. -/
theorem nonzero_insertTerm (k : S) (x : String) (terms : List (Term S))
    (nonzero : Nonzero terms) : Nonzero (insertTerm k x terms) := by
  induction terms with
  | nil =>
      unfold insertTerm
      split_ifs with zero
      · exact nonzero
      · exact List.forall_mem_singleton.mpr (eq_false_of_ne_true zero)
  | cons t rest ih =>
      obtain ⟨first, later⟩ := List.forall_mem_cons.mp nonzero
      unfold insertTerm
      split
      · split_ifs with zero
        · exact nonzero
        · exact List.forall_mem_cons.mpr ⟨eq_false_of_ne_true zero, nonzero⟩
      · dsimp only
        split_ifs with zero
        · exact later
        · exact List.forall_mem_cons.mpr ⟨eq_false_of_ne_true zero, later⟩
      · exact List.forall_mem_cons.mpr ⟨first, ih later⟩

/-- A multiplication keeps coefficients from being zero unless it makes one zero itself. -/
theorem nonzero_scale {e : Expression S} {k : S} (kept : ∀ t ∈ e.terms,
    Scalar.isZero k = false → Scalar.isZero (t.coefficient * k) = false) :
    Nonzero (e.scale k).terms := by
  unfold scale
  split_ifs with zero
  · exact List.forall_mem_nil _
  · exact List.forall_mem_map.mpr fun t mem => kept t mem (eq_false_of_ne_true zero)

namespace Build

/-- What a step may do to coefficients for none to become zero: one is not zero, and neither changing
a sign nor the multiplication of the step, if it is one, makes a coefficient zero. -/
structure KeepsNonzero (b : Build S) : Prop where
  /-- The coefficient of a variable is not zero. -/
  one : Scalar.isZero (Scalar.one : S) = false
  /-- Changing a sign keeps a coefficient from being zero. -/
  sign : ∀ x : S, Scalar.isZero x = false → Scalar.isZero (x * -Scalar.one) = false
  /-- So does multiplying by a number other than zero. -/
  product : ∀ p k, b = scale p k → ∀ t ∈ p.run.terms, Scalar.isZero t.coefficient = false →
    Scalar.isZero k = false → Scalar.isZero (t.coefficient * k) = false

/-- A step brings no zero with it. -/
theorem nonzero_step {b : Build S} (keeps : b.KeepsNonzero)
    (before : ∀ p ∈ b.operands, Nonzero p.run.terms) : Nonzero b.run.terms := by
  cases b with
  | ofConstant c => exact List.forall_mem_nil _
  | ofVariable x => exact List.forall_mem_singleton.mpr keeps.one
  | addTerm b k x => exact nonzero_insertTerm k x _ (before b List.mem_cons_self)
  | add b c => exact foldl_addTerm_keeps nonzero_insertTerm _ (before b List.mem_cons_self)
  | sub b c => exact foldl_addTerm_keeps nonzero_insertTerm _ (before b List.mem_cons_self)
  | neg b =>
      exact nonzero_scale fun t mem _ => keeps.sign _ (before b List.mem_cons_self t mem)
  | shift b k => exact before b List.mem_cons_self
  | scale b k =>
      exact nonzero_scale fun t mem =>
        keeps.product b k rfl t mem (before b List.mem_cons_self t mem)
  | instantiate b a => exact instantiate_keeps (List.forall_mem_nil _) nonzero_insertTerm a b.run

/-- If no step makes a coefficient zero, then the expression is without zeros, and so are all that
are built on the way. -/
theorem nonzero_onWay {b : Build S} (keeps : ∀ p, OnWay p b → p.KeepsNonzero) :
    ∀ p, OnWay p b → Nonzero p.run.terms := by
  induction b using induction_operands with
  | step b ih =>
      have before : ∀ q ∈ b.operands, ∀ p, OnWay p q → Nonzero p.run.terms :=
        fun q mem => ih q mem fun p way => keeps p (way.tail mem)
      intro p way
      rcases Relation.ReflTransGen.cases_tail way with rfl | ⟨q, way, operand⟩
      · exact nonzero_step (keeps _ way) fun q operand => before q operand q .refl
      · exact before q operand p way

end Build

end QuantumCircuit.Expression
