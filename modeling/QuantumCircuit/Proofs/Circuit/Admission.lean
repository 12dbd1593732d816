import QuantumCircuit.Proofs.Circuit.Emission
import QuantumCircuit.Proofs.Operation.Bits
import QuantumCircuit.Proofs.Operation.Touched

/-!
# Leaves that pass the checks of emissions

An emission checks what it appends.  An operation that is put together elsewhere, and comes in as
part of a block, is not checked, but its leaves may be such that an emission would have let them
in.  Whether they are depends on the size of the circuit only, so it carries over to a larger
circuit, and to one in which the qubits have other indices.
-/

namespace QuantumCircuit

open Operation

variable {S : Type}

/-! ## Leaves of operations -/

namespace Operation

mutual

/-- The leaves of a renamed operation are the renamed leaves. -/
theorem leaves_remap (f : Nat → Nat) : ∀ op : Operation S,
    (op.remap f).leaves = op.leaves.map (remap f)
  | .standard _ => rfl
  | .symbolic _ => rfl
  | .nonUnitary _ => rfl
  | .conditioned _ _ => rfl
  | .compound ops => leavesAll_remapAll f ops

theorem leavesAll_remapAll (f : Nat → Nat) : ∀ ops : List (Operation S),
    leavesAll (remapAll f ops) = (leavesAll ops).map (remap f)
  | [] => rfl
  | op :: ops => by
      rw [remapAll, leavesAll, leavesAll, List.map_append, leaves_remap f op,
        leavesAll_remapAll f ops]

end

mutual

/-- An operation touches what its leaves touch. -/
theorem actsOn_of_mem_leaves {q : Nat} {leaf : Operation S} (acts : leaf.actsOn q = true) :
    ∀ {op : Operation S}, leaf ∈ op.leaves → op.actsOn q = true
  | .standard _, mem => List.mem_singleton.mp mem ▸ acts
  | .symbolic _, mem => List.mem_singleton.mp mem ▸ acts
  | .nonUnitary _, mem => List.mem_singleton.mp mem ▸ acts
  | .conditioned _ _, mem => List.mem_singleton.mp mem ▸ acts
  | .compound _, mem => anyActsOn_of_mem_leavesAll acts mem

theorem anyActsOn_of_mem_leavesAll {q : Nat} {leaf : Operation S} (acts : leaf.actsOn q = true) :
    ∀ {ops : List (Operation S)}, leaf ∈ leavesAll ops → anyActsOn q ops = true
  | op :: ops, mem => by
      rw [anyActsOn, Bool.or_eq_true]
      rcases List.mem_append.mp mem with here | later
      · exact .inl (actsOn_of_mem_leaves acts here)
      · exact .inr (anyActsOn_of_mem_leavesAll acts later)

end

end Operation

namespace Circuit

/-! ## Checks -/

/-- Whether an operation passes the checks that an emission of such an operation makes.  Only gates
on one target are emitted under a condition, and blocks are not emitted. -/
inductive Admits (c : Circuit S) : Operation S → Prop where
  /-- `emit`, with numbers as parameters. -/
  | gate {g : Gate S}
      (arity : arityError? g.kind g.targets.length g.params.length = none)
      (qubits : c.qubitError? g.kind.name g.operands = none) : c.Admits (.standard g)
  /-- `emit`, with expressions among the parameters. -/
  | symbolic {g : Gate (Parameter S)}
      (arity : arityError? g.kind g.targets.length g.params.length = none)
      (qubits : c.qubitError? g.kind.name g.operands = none) : c.Admits (.symbolic g)
  /-- `emitConditioned`. -/
  | conditioned {g : Gate S} {condition : Condition} (single : g.targets.length = 1)
      (arity : arityError? g.kind 1 g.params.length = none)
      (qubits : c.qubitError? g.kind.name g.operands = none)
      (register : condition.register.stop ≤ c.numClbits) :
      c.Admits (.conditioned (.standard g) condition)
  /-- `measureQubits`. -/
  | measure {e : NonUnitary} (kind : e.kind = .measure)
      (lengths : e.targets.length = e.clbits.length)
      (qubits : c.qubitError? "measure" e.targets = none)
      (bits : c.clbitError? "measure" e.clbits = none) : c.Admits (.nonUnitary e)
  /-- `resetQubits`. -/
  | reset {e : NonUnitary} (kind : e.kind = .reset)
      (qubits : c.qubitError? "reset" e.targets = none)
      (bits : c.clbitError? "reset" e.clbits = none) : c.Admits (.nonUnitary e)
  /-- `barrierOn`. -/
  | barrier {g : Gate S} (kind : g.kind = .barrier)
      (qubits : c.qubitError? "barrier" g.operands = none) : c.Admits (.standard g)

variable {c d : Circuit S} {op : Operation S}

/-- What passes the checks is a leaf. -/
theorem Admits.leaves_eq (admits : c.Admits op) : op.leaves = [op] := by
  cases admits <;> rfl

/-- Conditions stand on gates. -/
theorem Admits.conditionsOnGates (admits : c.Admits op) : op.conditionsOnGates = true := by
  cases admits <;> rfl

/-- The qubits of a leaf that passes the checks are in range. -/
theorem Admits.occurrences_lt (admits : c.Admits op) : ∀ q ∈ op.occurrences,
    q < c.numTotalQubits := by
  cases admits with
  | gate _ qubits => exact qubitError?_eq_none_iff.mp qubits
  | symbolic _ qubits => exact qubitError?_eq_none_iff.mp qubits
  | conditioned _ _ qubits => exact qubitError?_eq_none_iff.mp qubits
  | measure _ _ qubits => exact qubitError?_eq_none_iff.mp qubits
  | reset _ qubits => exact qubitError?_eq_none_iff.mp qubits
  | barrier _ qubits => exact qubitError?_eq_none_iff.mp qubits

/-- The bits that a leaf that passes the checks measures into are in range. -/
theorem Admits.measuredBits_lt (admits : c.Admits op) : ∀ b ∈ op.measuredBits,
    b < c.numClbits := by
  cases admits with
  | measure _ _ _ bits => exact clbitError?_eq_none_iff.mp bits
  | reset _ _ bits => exact clbitError?_eq_none_iff.mp bits
  | _ => simp [measuredBits]

/-- The register of a condition is in range. -/
theorem Admits.controlRegisters_le (admits : c.Admits op) : ∀ r ∈ op.controlRegisters,
    r.stop ≤ c.numClbits := by
  cases admits with
  | conditioned _ _ _ register => simpa [controlRegisters] using register
  | _ => simp [controlRegisters]

/-- A leaf that passes the checks touches each of its qubits. -/
theorem Admits.actsOn (admits : c.Admits op) {q : Nat} (occurs : q ∈ op.occurrences) :
    op.actsOn q = true :=
  actsOn_of_mem_occurrences (conditionsPlain_of_onGates op admits.conditionsOnGates) occurs

/-! ## Other circuits -/

theorem length_targets_remapGate {P : Type} (f : Nat → Nat) (g : Gate P) :
    (remapGate f g).targets.length = g.targets.length :=
  List.length_map f

/-- A renamed leaf passes the checks of a circuit in which its qubits are in range and which has no
less classical bits. -/
theorem Admits.remap {f : Nat → Nat} (admits : c.Admits op)
    (qubits : ∀ q ∈ op.occurrences, f q < d.numTotalQubits) (clbits : c.numClbits ≤ d.numClbits) :
    d.Admits (op.remap f) := by
  have renamed : ∀ gate, ∀ l : List Nat, (∀ q ∈ l, ∃ p ∈ op.occurrences, f p = q) →
      d.qubitError? gate l = none := by
    intro gate l named
    refine qubitError?_eq_none_iff.mpr fun q mem => ?_
    rcases named q mem with ⟨p, occurs, rfl⟩
    exact qubits p occurs
  have measured : ∀ gate, d.clbitError? gate op.measuredBits = none := fun gate =>
    clbitError?_eq_none_iff.mpr fun b mem =>
      Nat.lt_of_lt_of_le (admits.measuredBits_lt b mem) clbits
  have occurs : ∀ q ∈ (op.remap f).occurrences, ∃ p ∈ op.occurrences, f p = q := fun q =>
    (mem_occurrences_remap f q op).mp
  cases admits with
  | @gate g arity =>
      rw [← length_targets_remapGate f g] at arity
      exact .gate arity (renamed _ _ occurs)
  | @symbolic g arity =>
      rw [← length_targets_remapGate f g] at arity
      exact .symbolic arity (renamed _ _ occurs)
  | conditioned single arity _ register =>
      exact .conditioned ((length_targets_remapGate f _).trans single) arity (renamed _ _ occurs)
        (Nat.le_trans register clbits)
  | measure kind lengths =>
      exact .measure kind ((List.length_map f).trans lengths) (renamed _ _ occurs) (measured _)
  | reset kind => exact .reset kind (renamed _ _ occurs) (measured _)
  | barrier kind => exact .barrier kind (renamed _ _ occurs)

/-- A leaf that passes the checks also does so in a circuit that is as large. -/
theorem Admits.mono (admits : c.Admits op) (qubits : c.numTotalQubits ≤ d.numTotalQubits)
    (clbits : c.numClbits ≤ d.numClbits) : d.Admits op := by
  rw [← remap_id op]
  exact admits.remap (fun q occurs => Nat.lt_of_lt_of_le (admits.occurrences_lt q occurs) qubits)
    clbits

/-! ## Emissions -/

/-- There is a result for each item. -/
theorem length_of_mapM {α β : Type} {f : α → Option β} {l : List α} {results : List β}
    (found : l.mapM f = some results) : results.length = l.length := by
  induction l generalizing results with
  | nil =>
      obtain rfl : [] = results := Option.some.inj found
      rfl
  | cons a l ih =>
      rw [List.mapM_cons] at found
      obtain ⟨b, _, rest⟩ := Option.bind_eq_some_iff.mp found
      obtain ⟨bs, later, last⟩ := Option.bind_eq_some_iff.mp rest
      obtain rfl : b :: bs = results := Option.some.inj last
      rw [List.length_cons, List.length_cons, ih later]

/-- A gate that passes the checks, with or without numbers as parameters. -/
theorem admits_gateOperation {kind : OpKind} {params : List (Parameter S)} {controls : Controls}
    {targets : List Nat} (arity : arityError? kind targets.length params.length = none)
    (qubits : c.qubitError? kind.name (controls.keys.map (·.qubit) ++ targets) = none) :
    c.Admits (gateOperation kind params controls targets) := by
  rw [gateOperation]
  cases numbers : params.mapM Parameter.number? with
  | none => exact .symbolic arity qubits
  | some values =>
      rw [← length_of_mapM numbers] at arity
      exact .gate arity qubits

variable [Scalar S]

/-- An emission is refused, or it appends a leaf that passes the checks. -/
theorem emission_admits (c : Circuit S) (e : Emission S) :
    (∃ cause, e.run c = c.refuse cause) ∨
      ∃ op, e.run c = (c.push op).done () ∧ c.Admits op := by
  have pushed : ∀ {error op}, (error = none → c.Admits op) →
      (∃ cause, c.pushUnless error op = c.refuse cause) ∨
        ∃ op', c.pushUnless error op = (c.push op').done () ∧ c.Admits op' := by
    intro error op passed
    cases error with
    | some cause => exact .inl ⟨cause, rfl⟩
    | none => exact .inr ⟨op, rfl, passed rfl⟩
  have gate : ∀ kind params controls targets,
      (∃ cause, c.emit kind params controls targets = c.refuse cause) ∨
        ∃ op, c.emit kind params controls targets = (c.push op).done () ∧ c.Admits op := by
    intro kind params controls targets
    refine pushed fun passed => ?_
    obtain ⟨arity, qubits⟩ := Option.or_eq_none_iff.mp passed
    exact admits_gateOperation arity qubits
  cases e with
  | gate kind params controls targets => exact gate kind params controls targets
  | named shorthand params controls qubits => exact gate shorthand.kind params _ _
  | conditioned kind target controls condition params =>
      refine pushed fun passed => ?_
      obtain ⟨checks, register⟩ := Option.or_eq_none_iff.mp passed
      obtain ⟨arity, qubits⟩ := Option.or_eq_none_iff.mp checks
      exact .conditioned rfl arity qubits (by simpa using register)
  | measure qubits bits =>
      rw [Emission.run, measureQubits]
      split
      · exact .inl ⟨_, rfl⟩
      · next lengths =>
          refine pushed fun passed => ?_
          obtain ⟨qubits, bits⟩ := Option.or_eq_none_iff.mp passed
          exact .measure rfl (not_not.mp lengths) qubits bits
  | reset qubits => exact pushed fun passed => .reset rfl passed rfl
  | barrierOn qubits => exact pushed fun passed => .barrier rfl passed
  | barrier => exact pushed fun passed => .barrier rfl passed

end Circuit

end QuantumCircuit
