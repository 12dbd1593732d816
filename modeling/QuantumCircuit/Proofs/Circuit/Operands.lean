import Mathlib.Data.Finset.Card
import QuantumCircuit.Proofs.Circuit.Emission
import QuantumCircuit.Proofs.Circuit.Holders

/-!
# Which operands are refused

A call on qubits that do not exist should be refused, and one on qubits that do should not be, at
least not for them.  The check compares an operand with the number of qubits, as if no index was
left out.  So it is right exactly in circuits whose physical qubits are the indices below their
number, and it goes wrong both ways as soon as a lower index is removed before a higher one, or a
qubit is added further off.
-/

namespace QuantumCircuit

open SortedMap

variable {S : Type}

/-! ## What a call refuses -/

section Calls

variable [Scalar S]

/-- The qubits that a call names, in the order in which they are checked. -/
def Emission.operands (c : Circuit S) : Emission S → List Nat
  | .gate _ _ controls targets => controls.keys.map (·.qubit) ++ targets
  | .named shorthand _ controls qubits =>
      (shorthand.operands controls qubits).1.keys.map (·.qubit) ++
        (shorthand.operands controls qubits).2
  | .conditioned _ target controls _ _ => controls.keys.map (·.qubit) ++ [target]
  | .measure qubits _ => qubits
  | .reset qubits => qubits
  | .barrierOn qubits => qubits
  | .barrier => List.range c.numQubits

/-- Whether a call has as many operands and parameters as it should, which is checked first. -/
def Emission.Shaped : Emission S → Prop
  | .gate kind params _ targets => Circuit.arityError? kind targets.length params.length = none
  | .named shorthand params controls qubits =>
      Circuit.arityError? shorthand.kind (shorthand.operands controls qubits).2.length
        params.length = none
  | .conditioned kind _ _ _ params => Circuit.arityError? kind 1 params.length = none
  | .measure qubits bits => qubits.length = bits.length
  | .reset _ => True
  | .barrierOn _ => True
  | .barrier => True

/-- Whether a call is refused because a qubit is out of range. -/
def Emission.Blames (c : Circuit S) (e : Emission S) (q : Nat) : Prop :=
  ∃ bound gate, (e.run c).answer = .error (.refused (.qubitOutOfRange q bound gate))

namespace Circuit

variable {c : Circuit S}

/-- Whether a check does not blame a qubit for being out of range. -/
def Spares (error : Option CircuitError) : Prop :=
  ∀ q bound gate, error ≠ some (.qubitOutOfRange q bound gate)

theorem answer_pushUnless_iff {error : Option CircuitError} {op : Operation S}
    {cause : CircuitError} :
    (c.pushUnless error op).answer = .error (.refused cause) ↔ error = some cause := by
  cases error with
  | none => simp [pushUnless, done]
  | some e => simp [pushUnless, refuse]

omit [Scalar S] in
theorem qubitError?_eq_some_iff {gate : String} {qubits : List Nat} {cause : CircuitError} :
    c.qubitError? gate qubits = some cause ↔
      ∃ q, qubits.find? (fun p => c.numTotalQubits ≤ p) = some q ∧
        .qubitOutOfRange q c.numTotalQubits (some gate) = cause :=
  Option.map_eq_some_iff

omit [Scalar S] in
theorem spares_none : Spares none :=
  fun _ _ _ => (Option.some_ne_none _).symm

omit [Scalar S] in
theorem spares_arityError? (kind : OpKind) (targets params : Nat) :
    Spares (arityError? kind targets params) := by
  intro q bound gate
  unfold arityError?
  split
  · simp
  · split_ifs <;> simp

omit [Scalar S] in
theorem spares_clbitError? (c : Circuit S) (gate : String) (bits : List Nat) :
    Spares (c.clbitError? gate bits) := by
  intro q bound label
  simp [clbitError?]

/-- Among several checks, that of the qubits is the only one that blames a qubit. -/
theorem blames_pushUnless_iff (c : Circuit S) {before after : Option CircuitError}
    (earlier : Spares before) (later : Spares after) (gate : String) (qubits : List Nat)
    (op : Operation S) (q : Nat) :
    (∃ bound label, (c.pushUnless ((before.or (c.qubitError? gate qubits)).or after) op).answer =
        .error (.refused (.qubitOutOfRange q bound label))) ↔
      before = none ∧ qubits.find? (fun p => c.numTotalQubits ≤ p) = some q := by
  simp only [answer_pushUnless_iff]
  cases before with
  | some e => simpa using earlier q
  | none =>
      rw [Option.none_or]
      cases found : c.qubitError? gate qubits with
      | none =>
          have missing : qubits.find? (fun p => c.numTotalQubits ≤ p) = none :=
            Option.map_eq_none_iff.mp found
          simpa [missing] using later q
      | some cause =>
          obtain ⟨p, first, rfl⟩ := qubitError?_eq_some_iff.mp found
          simp [first]

/-- A call of the right shape blames the first of its qubits that is not below the number of
qubits, and no other. -/
theorem blames_iff (c : Circuit S) (e : Emission S) (q : Nat) :
    e.Blames c q ↔
      e.Shaped ∧ (e.operands c).find? (fun p => c.numTotalQubits ≤ p) = some q := by
  have plain : ∀ (gate : String) (qubits : List Nat) (op : Operation S),
      (∃ bound label, (c.pushUnless (c.qubitError? gate qubits) op).answer =
          .error (.refused (.qubitOutOfRange q bound label))) ↔
        True ∧ qubits.find? (fun p => c.numTotalQubits ≤ p) = some q := by
    intro gate qubits op
    have only := c.blames_pushUnless_iff spares_none spares_none gate qubits op q
    rw [Option.or_none, Option.none_or] at only
    exact only.trans (and_congr_left fun _ => iff_true_intro rfl)
  have gate : ∀ (kind : OpKind) (params : List (Parameter S)) (controls : Controls)
      (targets : List Nat), (Emission.gate kind params controls targets).Blames c q ↔
        arityError? kind targets.length params.length = none ∧
          (controls.keys.map (·.qubit) ++ targets).find? (fun p => c.numTotalQubits ≤ p) =
            some q := by
    intro kind params controls targets
    have only := c.blames_pushUnless_iff (spares_arityError? kind targets.length params.length)
      spares_none kind.name (controls.keys.map (·.qubit) ++ targets)
      (gateOperation kind params controls targets) q
    rw [Option.or_none] at only
    exact only
  cases e with
  | gate kind params controls targets => exact gate kind params controls targets
  | named shorthand params controls qubits => exact gate shorthand.kind params _ _
  | conditioned kind target controls condition params =>
      refine c.blames_pushUnless_iff (spares_arityError? kind 1 params.length) ?_ _ _ _ q
      intro q bound gate
      split_ifs <;> simp
  | measure qubits bits =>
      unfold Emission.Blames
      rw [Emission.run, measureQubits]
      by_cases same : qubits.length = bits.length
      · rw [if_neg (not_not.mpr same)]
        refine (c.blames_pushUnless_iff spares_none (c.spares_clbitError? "measure" bits) "measure"
          qubits _ q).trans ?_
        exact and_congr_left fun _ => iff_of_true rfl same
      · rw [if_pos same]
        simp [refuse, Emission.Shaped, same]
  | reset qubits => exact plain "reset" qubits _
  | barrierOn qubits => exact plain "barrier" qubits _
  | barrier => exact plain "barrier" (List.range c.numQubits) _

/-- Whether the calls of the right shape blame the first of their qubits that is no physical qubit,
and no other. -/
def ScreensOperands (c : Circuit S) : Prop :=
  ∀ e : Emission S, e.Shaped → ∀ q,
    e.Blames c q ↔ (e.operands c).find? (fun p => !c.initialLayout.contains p) = some q

end Circuit

end Calls

namespace Circuit

/-- Whether the physical qubits are the indices below the number of qubits. -/
def Dense (c : Circuit S) : Prop :=
  ∀ p, c.initialLayout.contains p = true ↔ p < c.numTotalQubits

variable {c d : Circuit S}

/-- The check of operands is right exactly if no index is left out. -/
theorem screensOperands_iff [Scalar S] : c.ScreensOperands ↔ c.Dense := by
  constructor
  · intro screens p
    have one : (∃ q, (Emission.reset [p]).Blames c q) ↔ c.initialLayout.contains p = false := by
      simp only [screens (.reset [p]) trivial, Emission.operands, ← Option.isSome_iff_exists]
      simp
    have bound : (∃ q, (Emission.reset [p]).Blames c q) ↔ c.numTotalQubits ≤ p := by
      simp only [blames_iff, Emission.Shaped, true_and, Emission.operands,
        ← Option.isSome_iff_exists]
      simp
    rw [← Bool.not_eq_false, ← one, bound, Nat.not_le]
  · intro dense e shaped q
    have same : (fun p => decide (c.numTotalQubits ≤ p)) =
        fun p => !c.initialLayout.contains p := by
      funext p
      rw [Bool.eq_iff_iff, decide_eq_true_iff, Bool.not_eq_true', ← Bool.not_eq_true, dense p,
        Nat.not_lt]
    rw [blames_iff, and_iff_right shaped, same]

/-! ## Indices that are not left out -/

theorem Dense.congr (dense : c.Dense) (layout : d.initialLayout = c.initialLayout)
    (total : d.numTotalQubits = c.numTotalQubits) : d.Dense := by
  rw [Dense, layout, total]
  exact dense

theorem dense_insertQubits (dense : c.Dense) (n : Nat) (name : String) :
    (c.insertQubits n name).Dense := by
  intro p
  have total : (c.insertQubits n name).numTotalQubits = c.numTotalQubits + n :=
    Nat.add_right_comm _ _ _
  rw [total]
  exact (contains_extendLayout _ _ _ _).trans (by rw [dense p]; omega)

theorem dense_insertAncillae (dense : c.Dense) (n : Nat) (name : String) :
    (c.insertAncillae n name).Dense := by
  intro p
  have total : (c.insertAncillae n name).numTotalQubits = c.numTotalQubits + n :=
    (Nat.add_assoc _ _ _).symm
  rw [total]
  exact (contains_extendLayout _ _ _ _).trans (by rw [dense p]; omega)

/-- One more physical qubit leaves no index out exactly if it is the next one. -/
theorem dense_insert_iff (dense : c.Dense) {p : Nat} (l : Nat)
    (layout : d.initialLayout = c.initialLayout.insert p l)
    (total : d.numTotalQubits = c.numTotalQubits + 1)
    (free : c.initialLayout.contains p = false) : d.Dense ↔ p = c.numTotalQubits := by
  have above : c.numTotalQubits ≤ p := by
    rw [← Nat.not_lt, ← dense p, free]
    simp
  simp only [Dense, layout, total, contains_insert, dense _]
  constructor
  · intro all
    have next := (all c.numTotalQubits).mpr (Nat.lt_succ_self _)
    omega
  · rintro rfl q
    omega

/-! ### Removals -/

/-- Whether the second circuit has some of the physical qubits of the first, and counts as many less
as are gone. -/
structure Thinned (c d : Circuit S) : Prop where
  /-- The physical qubits were there before. -/
  contains : ∀ {p}, d.initialLayout.contains p = true → c.initialLayout.contains p = true
  /-- The count follows the layout. -/
  total : d.numTotalQubits + c.initialLayout.size = c.numTotalQubits + d.initialLayout.size

theorem Thinned.refl (c : Circuit S) : c.Thinned c :=
  ⟨fun held => held, rfl⟩

theorem Thinned.trans {e : Circuit S} (first : c.Thinned d) (second : d.Thinned e) :
    c.Thinned e where
  contains held := first.contains (second.contains held)
  total := by
    have := first.total
    have := second.total
    omega

theorem thinned_removeQubit (c : Circuit S) (l : Nat) : c.Thinned (c.removeQubit l).circuit := by
  rcases removeQubit_outcome c l with ⟨_, _, _, failed⟩ |
    ⟨p, _, _, numQubits, numAncillae, found, total, removed⟩
  · rw [failed]
    exact ⟨fun held => held, rfl⟩
  · have less : (c.initialLayout.erase p).size + 1 = c.initialLayout.size :=
      (entries_perm_erase (find?_of_physicalOf? found)).length_eq.symm
    rw [removed]
    refine ⟨fun held => (contains_erase.mp held).2, ?_⟩
    change numQubits + numAncillae + c.initialLayout.size =
      c.numTotalQubits + (c.initialLayout.erase p).size
    omega

/-- Stripping without closing up only takes qubits out. -/
theorem thinned_stripFrom (c : Circuit S) (force : Bool) (candidates : List Nat) :
    c.Thinned (stripFrom force false c candidates).circuit := by
  induction candidates generalizing c with
  | nil => exact .refl c
  | cons p rest ih =>
      rw [stripFrom]
      split
      · exact ih c
      · next l held =>
          split
          · exact ih c
          · have removed := thinned_removeQubit c l
            unfold Outcome.andThen
            split
            · exact removed.trans (ih _)
            · exact removed

/-- A finite set that has all numbers below its members is an initial segment. -/
theorem mem_iff_lt_card {s : Finset Nat} (lower : ∀ p q, p < q → q ∈ s → p ∈ s) (p : Nat) :
    p ∈ s ↔ p < s.card := by
  have within : s ⊆ Finset.range s.card := by
    intro q member
    have below : Finset.range (q + 1) ⊆ s := by
      intro r less
      rcases Nat.lt_succ_iff_lt_or_eq.mp (Finset.mem_range.mp less) with less | rfl
      · exact lower r q less member
      · exact member
    have card := Finset.card_le_card below
    rw [Finset.card_range] at card
    exact Finset.mem_range.mpr card
  rw [Finset.eq_of_subset_of_card_le within (Finset.card_range _).le, Finset.mem_range,
    Finset.card_range]

/-- The physical qubits as a set have as many members as the layout has entries. -/
theorem card_keys_initialLayout (c : Circuit S) :
    c.initialLayout.keys.toFinset.card = c.initialLayout.size := by
  rw [List.toFinset_card_of_nodup (nodup_keys _), keys, List.length_map, size]

theorem Dense.size_eq (dense : c.Dense) : c.initialLayout.size = c.numTotalQubits := by
  have same : c.initialLayout.keys.toFinset = Finset.range c.numTotalQubits := by
    ext p
    rw [List.mem_toFinset, mem_keys_iff, dense p, Finset.mem_range]
  rw [← card_keys_initialLayout, same, Finset.card_range]

/-- Whether all physical qubits that go lie above those that stay. -/
def Recedes (c d : Circuit S) : Prop :=
  ∀ p q, c.initialLayout.contains p = true → d.initialLayout.contains p = false →
    d.initialLayout.contains q = true → q < p

/-- Taking qubits out leaves no index out exactly if they are the highest ones. -/
theorem Thinned.dense_iff (thinned : c.Thinned d) (dense : c.Dense) :
    d.Dense ↔ c.Recedes d := by
  constructor
  · intro after p q _ gone stays
    rw [← Bool.not_eq_true, after p] at gone
    rw [after q] at stays
    omega
  · intro recedes p
    have lower : ∀ p q, p < q → q ∈ d.initialLayout.keys.toFinset →
        p ∈ d.initialLayout.keys.toFinset := by
      intro p q less member
      rw [List.mem_toFinset, mem_keys_iff] at member ⊢
      by_contra gone
      have above := (dense q).mp (thinned.contains member)
      have before := (dense p).mpr (less.trans above)
      exact Nat.lt_asymm less (recedes p q before (Bool.eq_false_of_not_eq_true gone) member)
    have counts := thinned.total
    have sizes := dense.size_eq
    rw [← mem_keys_iff, ← List.mem_toFinset, mem_iff_lt_card lower, card_keys_initialLayout]
    omega

/-! ### Closing up -/

/-- Closing up behind the only holder of a logical index leaves no index out. -/
theorem Dense.closeUp (dense : c.Dense) {p l : Nat} (held : c.initialLayout.find? p = some l)
    (layout : d.initialLayout = c.initialLayout.erase p)
    (total : d.numTotalQubits + 1 = c.numTotalQubits) : (d.closeUp l p).Dense := by
  have below := (dense p).mp (contains_iff_find?.mpr ⟨l, held⟩)
  intro q
  change (closeLayout l p d.initialLayout).contains q = true ↔ q < d.numTotalQubits
  rw [SortedMap.contains, layout, find?_closeLayout_erase, Option.isSome_map]
  change c.initialLayout.contains (openGap p q) = true ↔ _
  rw [dense, openGap]
  split_ifs <;> omega

/-- Stripping with closing up leaves no index out if no logical qubit is held twice. -/
theorem Dense.stripFrom (dense : c.Dense) (injective : c.initialLayout.Injective) (force : Bool)
    (candidates : List Nat) : (stripFrom force true c candidates).circuit.Dense := by
  induction candidates generalizing c with
  | nil => exact dense
  | cons p rest ih =>
      rw [Circuit.stripFrom]
      split
      · exact ih dense injective
      · next l held =>
          split
          · exact ih dense injective
          · rcases removeQubit_outcome c l with ⟨_, _, _, failed⟩ |
              ⟨q, _, _, _, _, found, total, removed⟩
            · rw [failed]
              exact dense.congr rfl rfl
            · obtain rfl := injective (find?_of_physicalOf? found) held
              rw [removed]
              exact ih (dense.closeUp held rfl total) (injective.closed held)

/-! ### Marks -/

theorem numTotalQubits_makeAncilla (c : Circuit S) (l p : Nat) :
    (c.makeAncilla l p).circuit.numTotalQubits = c.numTotalQubits := by
  have moved : (c.moveToAncillae p).circuit.numTotalQubits = c.numTotalQubits := by
    unfold moveToAncillae
    split
    · rfl
    · split <;> rfl
  unfold makeAncilla Outcome.andThen
  split
  · dsimp only
    split
    · exact moved
    · next positive =>
        rw [← moved]
        change (c.moveToAncillae p).circuit.numQubits - 1 +
          ((c.moveToAncillae p).circuit.numAncillae + 1) = (c.moveToAncillae p).circuit.numQubits +
            (c.moveToAncillae p).circuit.numAncillae
        omega
  · exact moved

theorem Dense.markAncillary (dense : c.Dense) (lo hi : Nat) :
    (c.markAncillary lo hi).circuit.Dense :=
  markAncillary_keeps Dense (fun d l p before =>
    before.congr (initialLayout_makeAncilla d l p) (numTotalQubits_makeAncilla d l p)) dense lo hi

end Circuit

/-! ## Runs -/

/-- Whether a step leaves no physical index out: a single qubit is added as the next one, and where
indices are not closed up, the highest ones go. -/
def Step.Adjoining (c : Circuit S) : Step S → Prop
  | .addQubit logical physical output =>
      (c.addQubit logical physical output).answer = .ok () → physical = c.numTotalQubits
  | .addAncillaryQubit physical output =>
      (c.addAncillaryQubit physical output).answer = .ok () → physical = c.numTotalQubits
  | .removeQubit logical => c.Recedes (c.removeQubit logical).circuit
  | .stripIdle force closing => closing = false → c.Recedes (c.stripIdle force false).circuit
  | _ => True

namespace Circuit

variable {c : Circuit S}

/-- A step leaves no index out exactly if a single qubit comes next and the highest ones go. -/
theorem Dense.run_iff (dense : c.Dense) (injective : c.initialLayout.Injective) (s : Step S) :
    (s.run c).Dense ↔ s.Adjoining c := by
  cases s with
  | addQubitRegister n name =>
      refine iff_of_true ?_ trivial
      rw [Step.run]
      rcases addQubitRegister_cases c n name with ⟨_, failed⟩ | ⟨_, added⟩ | ⟨_, added⟩
      · rw [failed]
        exact dense
      · rw [added]
        exact dense
      · rw [added]
        exact dense_insertQubits dense n name
  | addClassicalRegister n name =>
      refine iff_of_true ?_ trivial
      rw [Step.run, addClassicalRegister]
      split_ifs <;> exact dense
  | addAncillaryRegister n name =>
      refine iff_of_true ?_ trivial
      rw [Step.run]
      rcases addAncillaryRegister_cases c n name with ⟨_, failed⟩ | ⟨_, added⟩ | ⟨_, added⟩
      · rw [failed]
        exact dense
      · rw [added]
        exact dense
      · rw [added]
        exact dense_insertAncillae dense n name
  | addQubit logical physical output =>
      rw [Step.run, Step.Adjoining]
      rcases addQubit_cases c logical physical output with ⟨_, failed⟩ | ⟨free, _, _, added⟩
      · rw [failed]
        exact iff_of_true dense fun done => by contradiction
      · rw [added]
        refine (dense_insert_iff dense logical ?_ ?_ free).trans
          ⟨fun next _ => next, fun next => next rfl⟩
        · rfl
        · exact Nat.add_right_comm c.numQubits 1 c.numAncillae
  | addAncillaryQubit physical output =>
      rw [Step.run, Step.Adjoining]
      rcases addAncillaryQubit_cases c physical output with ⟨_, failed⟩ | ⟨free, _, added⟩
      · rw [failed]
        exact iff_of_true dense fun done => by contradiction
      · rw [added]
        refine (dense_insert_iff dense c.numTotalQubits ?_ ?_ free).trans
          ⟨fun next _ => next, fun next => next rfl⟩
        · rfl
        · exact (Nat.add_assoc c.numQubits c.numAncillae 1).symm
  | removeQubit logical => exact (thinned_removeQubit c logical).dense_iff dense
  | markAncillary lo hi => exact iff_of_true (dense.markAncillary lo hi) trivial
  | markGarbage lo hi =>
      refine iff_of_true ?_ trivial
      rw [Step.run, markGarbage]
      split
      · exact dense
      · split <;> exact dense
  | unifyRegisters name => exact iff_of_true (dense.congr rfl rfl) trivial
  | stripIdle force closing =>
      cases closing with
      | false =>
          refine ((thinned_stripFrom c force _).dense_iff dense).trans ?_
          exact ⟨fun recedes _ => recedes, fun recedes => recedes rfl⟩
      | true =>
          exact iff_of_true (dense.stripFrom injective force _) fun gaps => by contradiction
  | program ops variableNames globalPhase => exact iff_of_true dense trivial

variable [Scalar S]

theorem dense_of_ofConfig? {config : Config} (built : ofConfig? config = some c) : c.Dense := by
  have none : (blank config : Circuit S).Dense := by
    intro p
    simp [blank, numTotalQubits]
  have all : ((blank config : Circuit S).insertQubits config.numQubits config.qregName).Dense :=
    dense_insertQubits none _ _
  rcases ofConfig?_cases built with ⟨bare, rfl | ⟨_, rfl⟩, rfl | rfl⟩
  · exact none
  · exact none
  · exact all
  · exact all

/-- Calls blame exactly the operands that are no physical qubits if and only if the physical qubits
are the indices below their number.  In a run from a new circuit, this is so and no logical qubit is
held twice at every point exactly if all single qubits are added as the next ones, only the highest
ones are taken out where indices are not closed up, and no logical index that is held is added. -/
theorem screensOperands_throughout_iff {config : Config} (built : ofConfig? config = some c)
    (steps : List (Step S)) :
    (∀ d : Circuit S, d.ScreensOperands ↔ d.Dense) ∧
    ((∀ prior, prior <+: steps → (Step.runAll c prior).ScreensOperands ∧
        (Step.runAll c prior).initialLayout.Injective) ↔
      ∀ prior s, prior ++ [s] <+: steps →
        s.Adjoining (Step.runAll c prior) ∧ s.Unheld (Step.runAll c prior)) := by
  refine ⟨fun d => screensOperands_iff, ?_⟩
  have initially : c.Dense ∧ c.initialLayout.Injective :=
    ⟨dense_of_ofConfig? built, injective_of_ofConfig? built⟩
  have step_iff : ∀ (d : Circuit S) (s : Step S), d.Dense ∧ d.initialLayout.Injective →
      ((((s.run d).Dense ∧ (s.run d).initialLayout.Injective) ∧ True) ↔
        s.Adjoining d ∧ s.Unheld d) :=
    fun d s holds => (and_iff_left trivial).trans
      (and_congr (holds.1.run_iff holds.2 s) (injective_run_iff holds.2 s))
  simp only [screensOperands_iff]
  refine Iff.trans ?_ (throughout_iff initially step_iff steps)
  exact (and_iff_left fun _ _ _ => trivial).symm

/-- One qubit is added as the next one, it is removed again, and so are the idle ones above a qubit
that is measured. -/
theorem screensOperands_throughout_adjoining :
    let c : Circuit Float := (blank Config.default).insertQubits 3 "q"
    let steps : List (Step Float) := [.addAncillaryQubit 3 none, .removeQubit 3,
      .program [.nonUnitary (.ofMeasure [0, 1] [0, 1])] .empty Scalar.zero, .stripIdle true false]
    (Step.runAll c steps).initialLayout.entries = [(0, 0), (1, 1)] ∧
      ∀ prior, prior <+: steps → (Step.runAll c prior).ScreensOperands := by
  intro c steps
  have built : ofConfig? { Config.default with numQubits := 3 } = some c := rfl
  -- A key that is tried bounds all that are left below it, so finitely many keys decide.
  have recedes : ∀ {before after : Circuit Float},
      (∀ p ∈ before.initialLayout.keys, after.initialLayout.contains p = false →
        ∀ q ∈ after.initialLayout.keys, q < p) → before.Recedes after :=
    fun all p q held gone stays =>
      all p (mem_keys_iff.mpr held) gone q (mem_keys_iff.mpr stays)
  have adjoining : ∀ prior s, prior ++ [s] <+: steps → s.Adjoining (Step.runAll c prior) :=
    forall_steps_cons_iff.mpr ⟨fun _ => by decide +kernel,
      forall_steps_cons_iff.mpr ⟨recedes (by decide +kernel),
      forall_steps_cons_iff.mpr ⟨trivial,
      forall_steps_cons_iff.mpr ⟨fun _ => recedes (by decide +kernel), forall_steps_nil⟩⟩⟩⟩
  have unheld : ∀ prior s, prior ++ [s] <+: steps → s.Unheld (Step.runAll c prior) := by
    refine forall_steps_cons_iff.mpr ⟨fun _ => ?_, forall_steps_cons_iff.mpr ⟨trivial,
      forall_steps_cons_iff.mpr ⟨trivial, forall_steps_cons_iff.mpr ⟨trivial, forall_steps_nil⟩⟩⟩⟩
    apply physicalOf?_eq_none_iff.mp
    decide +kernel
  refine ⟨by decide +kernel, fun prior isPrefix => ?_⟩
  have sound := (screensOperands_throughout_iff built steps).2.mpr fun prior s isPrefix =>
    ⟨adjoining prior s isPrefix, unheld prior s isPrefix⟩
  exact (sound prior isPrefix).1

/-- After the first of three qubits is removed, a call on it is taken in, and a call on the last one
is refused. -/
theorem not_screensOperands_removed :
    let c := Step.run ((blank Config.default : Circuit Float).insertQubits 3 "q") (.removeQubit 0)
    c.initialLayout.entries = [(1, 1), (2, 2)] ∧
      (Emission.reset [2] : Emission Float).Blames c 2 ∧
      ((Emission.reset [0] : Emission Float).run c).answer = .ok () ∧ ¬ c.ScreensOperands := by
  intro c
  have blamed : (Emission.reset [2] : Emission Float).Blames c 2 :=
    ⟨2, some "reset", by decide +kernel⟩
  refine ⟨by decide +kernel, blamed, by decide +kernel, fun screens => ?_⟩
  have unheld := (screens (.reset [2]) trivial 2).mp blamed
  exact absurd unheld (by decide +kernel)

end Circuit

end QuantumCircuit
