import QuantumCircuit.Proofs.Circuit.Addition
import QuantumCircuit.Proofs.Circuit.Reachable
import QuantumCircuit.Proofs.Circuit.Removal
import QuantumCircuit.Proofs.Registers.Kin
import QuantumCircuit.Proofs.Registers.Labels

/-!
# Labels of qubits

Quantum and ancillary registers have their names each for themselves: a name is free in one map even
if the other map has it.  So two qubits can have the same label, but only across the maps, at the
same position of registers of the same name.  Names are made up from names that are given, and each
map only from those given for it.  If none of the names given for one map leads to one given for the
other, labels stay unambiguous whatever is split, joined and moved.
-/

namespace QuantumCircuit.Circuit

open Registers SortedMap

variable {S : Type} {c : Circuit S}

/-! ## Labels of a circuit -/

/-- Whether different physical qubits never have the same label. -/
def Unambiguous (c : Circuit S) : Prop :=
  ∀ p q v w, c.qubitNames.find? p = some v → c.qubitNames.find? q = some w → v.2 = w.2 → p = q

/-- Whether a quantum and an ancillary register have the same name. -/
def SharesName (c : Circuit S) : Prop :=
  ∃ name, c.qregs.contains name = true ∧ c.ancregs.contains name = true

/-- Whether two physical qubits lie at the same position of a quantum and of an ancillary register
of the same name. -/
def Clash (c : Circuit S) (p q : Nat) : Prop :=
  ∃ name offset, c.qregs.Places name offset p ∧ c.ancregs.Places name offset q

theorem find?_qubitNames (c : Circuit S) (p : Nat) :
    c.qubitNames.find? p = ((names c.ancregs).find? p).or ((names c.qregs).find? p) := by
  rw [qubitNames, find?_insertAll, ofList_entries]

/-- The label of a qubit comes from one of the maps. -/
theorem places_of_qubitNames {p : Nat} {v : String × String}
    (named : c.qubitNames.find? p = some v) : ∃ offset, v.2 = label v.1 offset ∧
      (c.qregs.Places v.1 offset p ∨ c.ancregs.Places v.1 offset p) := by
  rw [find?_qubitNames, Option.or_eq_some_iff] at named
  rcases named with ancillary | ⟨-, quantum⟩
  · obtain ⟨offset, places, equal⟩ := places_of_names ancillary
    exact ⟨offset, equal, .inr places⟩
  · obtain ⟨offset, places, equal⟩ := places_of_names quantum
    exact ⟨offset, equal, .inl places⟩

/-- Only a quantum and an ancillary register of the same name give different qubits the same
label. -/
theorem clash_of_same_label {p q : Nat} {v w : String × String}
    (namedP : c.qubitNames.find? p = some v) (namedQ : c.qubitNames.find? q = some w)
    (same : v.2 = w.2) (differ : p ≠ q) : c.Clash p q ∨ c.Clash q p := by
  obtain ⟨offset, labelP, placesP⟩ := places_of_qubitNames namedP
  obtain ⟨offset', labelQ, placesQ⟩ := places_of_qubitNames namedQ
  rw [labelP, labelQ, label_inj] at same
  obtain ⟨sameName, rfl⟩ := same
  rw [← sameName] at placesQ
  rcases placesP with quantumP | ancillaryP
  · rcases placesQ with quantumQ | ancillaryQ
    · exact absurd (quantumP.unique quantumQ) differ
    · exact .inl ⟨v.1, offset, quantumP, ancillaryQ⟩
  · rcases placesQ with quantumQ | ancillaryQ
    · exact .inr ⟨v.1, offset, quantumQ, ancillaryP⟩
    · exact absurd (ancillaryP.unique ancillaryQ) differ

theorem Clash.sharesName {p q : Nat} (clash : c.Clash p q) : c.SharesName := by
  obtain ⟨name, _, ⟨r, foundQ, -⟩, ⟨s, foundA, -⟩⟩ := clash
  exact ⟨name, contains_iff_find?.mpr ⟨r, foundQ⟩, contains_iff_find?.mpr ⟨s, foundA⟩⟩

theorem unambiguous_of_not_sharesName (unshared : ¬ c.SharesName) : c.Unambiguous := by
  intro p q v w namedP namedQ same
  by_contra differ
  rcases clash_of_same_label namedP namedQ same differ with clash | clash
  · exact unshared clash.sharesName
  · exact unshared clash.sharesName

/-- Whether no register is empty or reaches the last index, and no two registers, of either map,
share a qubit. -/
structure TidyRegisters (c : Circuit S) : Prop where
  /-- The quantum registers. -/
  qregs : c.qregs.Tidy
  /-- The ancillary registers. -/
  ancregs : c.ancregs.Tidy
  /-- A qubit in a quantum register is not in an ancillary one. -/
  apart : ∀ p, covers c.qregs p = true → covers c.ancregs p = false

/-- The first qubits of registers of the same name have the same label. -/
theorem TidyRegisters.unambiguous_iff (tidy : c.TidyRegisters) :
    c.Unambiguous ↔ ¬ c.SharesName := by
  refine ⟨?_, unambiguous_of_not_sharesName⟩
  rintro unambiguous ⟨name, storedQ, storedA⟩
  obtain ⟨r, foundQ⟩ := contains_iff_find?.mp storedQ
  obtain ⟨s, foundA⟩ := contains_iff_find?.mp storedA
  have placesQ : c.qregs.Places name 0 r.start :=
    ⟨r, foundQ, (tidy.qregs.proper foundQ).contains_start, rfl⟩
  have placesA : c.ancregs.Places name 0 s.start :=
    ⟨s, foundA, (tidy.ancregs.proper foundA).contains_start, rfl⟩
  have free := tidy.apart _ placesQ.covers
  have namedQ : c.qubitNames.find? r.start = some (name, label name 0) := by
    rw [find?_qubitNames, names_eq_none free, Option.none_or,
      names_of_places tidy.qregs.apart placesQ]
  have namedA : c.qubitNames.find? s.start = some (name, label name 0) := by
    rw [find?_qubitNames, names_of_places tidy.ancregs.apart placesA, Option.some_or]
  have same := unambiguous _ _ _ _ namedQ namedA rfl
  rw [same, placesA.covers] at free
  contradiction

/-! ## Names that are given -/

end QuantumCircuit.Circuit

namespace QuantumCircuit

variable {S : Type}

/-- The name that a step gives for a quantum register. -/
def Step.qubitName? : Step S → Option String
  | .addQubitRegister _ name => some name
  | .unifyRegisters name => some name
  | _ => none

/-- The name that a step gives for an ancillary register. -/
def Step.ancillaName? : Step S → Option String
  | .addAncillaryRegister _ name => some name
  | _ => none

/-- The names that settings and steps give for quantum registers. -/
def Config.qubitNames (config : Config) (steps : List (Step S)) : List String :=
  config.qregName :: steps.filterMap Step.qubitName?

/-- The names that settings and steps give for ancillary registers. -/
def Config.ancillaNames (config : Config) (steps : List (Step S)) : List String :=
  config.ancregName :: steps.filterMap Step.ancillaName?

namespace Circuit

open Registers SortedMap

variable {c : Circuit S} {quantum ancillary : Set String}

/-- Whether the names in each map come from one set of names. -/
structure NamedFrom (quantum ancillary : Set String) (c : Circuit S) : Prop where
  /-- The name of quantum registers that are not named. -/
  qregName : c.qregName ∈ quantum
  /-- The name of ancillary registers that are not named. -/
  ancregName : c.ancregName ∈ ancillary
  /-- The names of the quantum registers. -/
  qregs : c.qregs.KinTo quantum
  /-- The names of the ancillary registers. -/
  ancregs : c.ancregs.KinTo ancillary

namespace NamedFrom

theorem removeQubit (named : c.NamedFrom quantum ancillary) (l : Nat) :
    (c.removeQubit l).circuit.NamedFrom quantum ancillary := by
  obtain ⟨qregName, ancregName, qregs, ancregs⟩ := registers_removeQubit c l
  refine ⟨qregName ▸ named.qregName, ancregName ▸ named.ancregName, ?_, ?_⟩
  · rcases qregs with same | ⟨_, _, removed⟩
    · rw [same]
      exact named.qregs
    · exact named.qregs.remove removed
  · rcases ancregs with same | ⟨_, _, removed⟩
    · rw [same]
      exact named.ancregs
    · exact named.ancregs.remove removed

theorem closeUp (named : c.NamedFrom quantum ancillary) (l p : Nat) :
    (c.closeUp l p).NamedFrom quantum ancillary :=
  ⟨named.qregName, named.ancregName, named.qregs.closeRegisters p, named.ancregs.closeRegisters p⟩

/-- A qubit that is moved leaves a quantum register for an ancillary one that has its name from the
ancillary names. -/
theorem makeAncilla (named : c.NamedFrom quantum ancillary) (l p : Nat) :
    (c.makeAncilla l p).circuit.NamedFrom quantum ancillary := by
  have moved : (c.moveToAncillae p).circuit.NamedFrom quantum ancillary := by
    unfold moveToAncillae
    split
    · exact named
    · split
      · exact named
      · next qregs removed =>
          exact ⟨named.qregName, named.ancregName, named.qregs.remove removed,
            named.ancregs.add (inFamily_of_mem named.ancregName) p⟩
  unfold Circuit.makeAncilla Outcome.andThen
  split
  · dsimp only
    split
    · exact moved
    · exact ⟨moved.qregName, moved.ancregName, moved.qregs, moved.ancregs⟩
  · exact moved

theorem of_ofConfig? [Scalar S] {config : Config} (built : ofConfig? config = some c)
    (qregName : config.qregName ∈ quantum) (ancregName : config.ancregName ∈ ancillary) :
    c.NamedFrom quantum ancillary := by
  have blank : NamedFrom quantum ancillary (blank config : Circuit S) :=
    ⟨qregName, ancregName, kinTo_empty quantum, kinTo_empty ancillary⟩
  have grown : NamedFrom quantum ancillary
      ((Circuit.blank config : Circuit S).insertQubits config.numQubits config.qregName) :=
    ⟨qregName, ancregName, blank.qregs.growRegister (inFamily_of_mem qregName) _ _, blank.ancregs⟩
  rcases ofConfig?_cases built with ⟨bare, rfl | ⟨-, rfl⟩, rfl | rfl⟩
  · exact blank
  · exact ⟨blank.qregName, blank.ancregName, blank.qregs, blank.ancregs⟩
  · exact grown
  · exact ⟨grown.qregName, grown.ancregName, grown.qregs, grown.ancregs⟩

/-- A step makes up names from those of its map and those that it gives. -/
theorem run (named : c.NamedFrom quantum ancillary) {s : Step S}
    (givesQ : ∀ name, s.qubitName? = some name → name ∈ quantum)
    (givesA : ∀ name, s.ancillaName? = some name → name ∈ ancillary) :
    (s.run c).NamedFrom quantum ancillary := by
  cases s with
  | addQubitRegister n name =>
      have family := inFamily_of_mem (givesQ name rfl)
      rw [Step.run]
      rcases addQubitRegister_cases c n name with ⟨_, failed⟩ | ⟨_, added⟩ | ⟨_, added⟩
      · rw [failed]
        exact named
      · rw [added]
        exact named
      · rw [added]
        exact ⟨named.qregName, named.ancregName, named.qregs.growRegister family _ n,
          named.ancregs⟩
  | addClassicalRegister n name =>
      rw [Step.run]
      unfold Circuit.addClassicalRegister
      split_ifs
      · exact named
      · exact named
      · exact ⟨named.qregName, named.ancregName, named.qregs, named.ancregs⟩
      · exact named
  | addAncillaryRegister n name =>
      have family := inFamily_of_mem (givesA name rfl)
      rw [Step.run]
      rcases addAncillaryRegister_cases c n name with ⟨_, failed⟩ | ⟨_, added⟩ | ⟨_, added⟩
      · rw [failed]
        exact named
      · rw [added]
        exact named
      · rw [added]
        exact ⟨named.qregName, named.ancregName, named.qregs,
          named.ancregs.growRegister family _ n⟩
  | addQubit l p output =>
      rw [Step.run]
      rcases addQubit_cases c l p output with ⟨_, failed⟩ | ⟨_, _, _, added⟩
      · rw [failed]
        exact named
      · rw [added]
        exact ⟨named.qregName, named.ancregName,
          named.qregs.add (inFamily_of_mem named.qregName) p, named.ancregs⟩
  | addAncillaryQubit p output =>
      rw [Step.run]
      rcases addAncillaryQubit_cases c p output with ⟨_, failed⟩ | ⟨_, _, added⟩
      · rw [failed]
        exact named
      · rw [added]
        exact ⟨named.qregName, named.ancregName, named.qregs,
          named.ancregs.add (inFamily_of_mem named.ancregName) p⟩
  | removeQubit l => exact named.removeQubit l
  | markAncillary lo hi =>
      exact markAncillary_keeps (NamedFrom quantum ancillary)
        (fun _ l p before => before.makeAncilla l p) named lo hi
  | markGarbage lo hi =>
      rw [Step.run]
      unfold Circuit.markGarbage
      split
      · exact named
      · split_ifs
        · exact named
        · exact ⟨named.qregName, named.ancregName, named.qregs, named.ancregs⟩
  | unifyRegisters name =>
      have family := inFamily_of_mem (givesQ name rfl)
      refine ⟨named.qregName, named.ancregName, ?_, kinTo_empty ancillary⟩
      change KinTo quantum (if _ then _ else _)
      split_ifs
      · exact (kinTo_empty quantum).insert family _
      · exact kinTo_empty quantum
  | stripIdle force closing =>
      exact stripFrom_keeps (NamedFrom quantum ancillary) (fun _ l before => before.removeQubit l)
        (fun _ l p before => before.closeUp l p) named force closing _
  | program ops variableNames globalPhase =>
      exact ⟨named.qregName, named.ancregName, named.qregs, named.ancregs⟩

theorem runAll (named : c.NamedFrom quantum ancillary) {steps : List (Step S)}
    (givesQ : ∀ s ∈ steps, ∀ name, s.qubitName? = some name → name ∈ quantum)
    (givesA : ∀ s ∈ steps, ∀ name, s.ancillaName? = some name → name ∈ ancillary) :
    (Step.runAll c steps).NamedFrom quantum ancillary := by
  induction steps generalizing c with
  | nil => exact named
  | cons s steps ih =>
      rw [List.forall_mem_cons] at givesQ givesA
      exact ih (named.run givesQ.1 givesA.1) givesQ.2 givesA.2

/-- No name is in both maps if no name given for one is kin to a name given for the other. -/
theorem not_sharesName (named : c.NamedFrom quantum ancillary)
    (unrelated : ∀ a ∈ quantum, ∀ b ∈ ancillary, ¬ Kin a b) : ¬ c.SharesName := by
  rintro ⟨name, storedQ, storedA⟩
  obtain ⟨a, memberA, kinA⟩ := named.qregs name storedQ
  obtain ⟨b, memberB, kinB⟩ := named.ancregs name storedA
  exact unrelated a memberA b memberB (kinA.trans _ _ _ (.symm _ _ kinB))

end NamedFrom

/-! ## Labels throughout a run -/

variable [Scalar S]

theorem namedFrom_runAll {config : Config} (built : ofConfig? config = some c)
    (steps : List (Step S)) : (Step.runAll c steps).NamedFrom
      {name | name ∈ config.qubitNames steps} {name | name ∈ config.ancillaNames steps} := by
  refine (NamedFrom.of_ofConfig? built List.mem_cons_self List.mem_cons_self).runAll ?_ ?_
  · intro s member name gives
    exact List.mem_cons_of_mem _ (List.mem_filterMap.mpr ⟨s, member, gives⟩)
  · intro s member name gives
    exact List.mem_cons_of_mem _ (List.mem_filterMap.mpr ⟨s, member, gives⟩)

/-- In every state of a run, two physical qubits have the same label only if they lie at the same
position of a quantum and of an ancillary register of the same name.  So labels are unambiguous if
no name is in both maps, and only then if no register is empty or reaches the last index and no two
registers share a qubit.  It is so throughout a run if no name that is given for quantum registers is
connected, through names of halves and numbered names, with one that is given for ancillary
registers. -/
theorem labels_throughout {config : Config} (built : ofConfig? config = some c)
    (steps : List (Step S)) :
    let last := Step.runAll c steps
    (∀ p q v w, last.qubitNames.find? p = some v → last.qubitNames.find? q = some w →
      v.2 = w.2 → p ≠ q → last.Clash p q ∨ last.Clash q p) ∧
    (¬ last.SharesName → last.Unambiguous) ∧
    (last.TidyRegisters → (last.Unambiguous ↔ ¬ last.SharesName)) ∧
    ((∀ a ∈ config.qubitNames steps, ∀ b ∈ config.ancillaNames steps, ¬ Kin a b) →
      last.Unambiguous) := by
  intro last
  refine ⟨fun _ _ _ _ => clash_of_same_label, unambiguous_of_not_sharesName,
    TidyRegisters.unambiguous_iff, fun unrelated => unambiguous_of_not_sharesName ?_⟩
  exact (namedFrom_runAll built steps).not_sharesName unrelated

/-- A register is split, one of its qubits moved to the ancillary ones, and a qubit put back. -/
theorem labels_throughout_split :
    let config : Config := { Config.default with numQubits := 4 }
    let steps : List (Step Float) :=
      [.removeQubit 1, .addAncillaryQubit 7 none, .markAncillary 2 2,
        .addAncillaryRegister 1 "spare", .addQubit 1 1 none]
    ∃ c : Circuit Float, ofConfig? config = some c ∧
      (Step.runAll c steps).qregs.keys = ["q_h", "q_l"] ∧
      (Step.runAll c steps).ancregs.keys = ["anc", "anc_2", "spare"] ∧
      (Step.runAll c steps).Unambiguous := by
  intro config steps
  obtain ⟨c, built⟩ : ∃ c : Circuit Float, ofConfig? config = some c := ⟨_, rfl⟩
  obtain ⟨-, -, -, unrelated⟩ := labels_throughout built steps
  refine ⟨c, built, ?_, ?_, unrelated fun a memberA b memberB kin => ?_⟩
  · obtain rfl := Option.some.inj built
    decide +kernel
  · obtain rfl := Option.some.inj built
    decide +kernel
  · have stems : ∀ a ∈ config.qubitNames steps, ∀ b ∈ config.ancillaNames steps,
        stem a ≠ stem b := by
      decide +kernel
    exact stems a memberA b memberB kin.stem_eq

/-- A quantum register that is given the name which ancillary registers have by default. -/
theorem not_unambiguous_default :
    ∃ c : Circuit Float, ofConfig? Config.default = some c ∧
      let last := Step.runAll c [.addQubitRegister 1 "anc", .addAncillaryQubit 1 none]
      last.qubitNames.find? 0 = some ("anc", "anc[0]") ∧
      last.qubitNames.find? 1 = some ("anc", "anc[0]") ∧ ¬ last.Unambiguous := by
  refine ⟨_, rfl, ?_⟩
  intro last
  have first : last.qubitNames.find? 0 = some ("anc", "anc[0]") := by decide +kernel
  have second : last.qubitNames.find? 1 = some ("anc", "anc[0]") := by decide +kernel
  exact ⟨first, second, fun unambiguous => absurd (unambiguous 0 1 _ _ first second rfl) (by decide)⟩

end Circuit

end QuantumCircuit
