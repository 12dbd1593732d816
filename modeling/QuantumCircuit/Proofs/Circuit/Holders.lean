import QuantumCircuit.Proofs.Circuit.Addition
import QuantumCircuit.Proofs.Circuit.Reachable
import QuantumCircuit.Proofs.Circuit.Removal

/-!
# Holders of logical qubits

A logical qubit should be held by one physical qubit, which is then the one that a look-up finds.
Removals keep it so, also when they close indices up, because they take out the only holder of an
index.  Additions choose a logical index in three ways: the caller gives it, the number of qubits is
taken for the next free one, or new physical indices are held by themselves.  None of them looks
whether the index is held already, which can be so as soon as indices have been left out.
-/

namespace QuantumCircuit

open Registers SortedMap

/-! ## Layouts -/

namespace Layout

open Circuit

variable {layout : Layout}

/-- Whether no logical qubit is held twice. -/
def Injective (layout : Layout) : Prop :=
  ∀ ⦃p q l⦄, layout.find? p = some l → layout.find? q = some l → p = q

theorem Injective.erase (injective : layout.Injective) (p : Nat) :
    Layout.Injective (layout.erase p) := by
  intro q q' l held held'
  rw [find?_erase] at held held'
  split at held
  · contradiction
  · split at held'
    · contradiction
    · exact injective held held'

/-- A new entry keeps a layout injective exactly if its logical index is not held. -/
theorem Injective.insert_iff (injective : layout.Injective) {p l : Nat}
    (free : layout.contains p = false) :
    Layout.Injective (layout.insert p l) ↔ ∀ q, layout.find? q ≠ some l := by
  have absent := contains_eq_false_iff.mp free
  constructor
  · intro extended q held
    have other : q ≠ p := by
      rintro rfl
      rw [absent] at held
      contradiction
    have same := extended (p := q) (q := p) (l := l)
    rw [find?_insert, find?_insert, if_neg other, if_pos rfl] at same
    exact other (same held rfl)
  · intro unheld q q' k held held'
    rw [find?_insert] at held held'
    split at held
    · next isNew =>
        obtain rfl := Option.some.inj held
        split at held'
        · next isNew' => rw [isNew, isNew']
        · exact absurd held' (unheld q')
    · split at held'
      · obtain rfl := Option.some.inj held'
        exact absurd held (unheld q)
      · exact injective held held'

/-- New indices that are held by themselves keep a layout injective exactly if only entries among
them, which are replaced, hold one of them. -/
theorem Injective.extend_iff (injective : layout.Injective) (start n : Nat) :
    Layout.Injective (extendLayout layout start n) ↔
      ∀ p l, layout.find? p = some l → start ≤ l ∧ l < start + n → start ≤ p ∧ p < start + n := by
  constructor
  · intro extended p l held new
    by_contra old
    have same := extended (p := p) (q := l) (l := l)
    rw [find?_extendLayout, find?_extendLayout, if_neg old, if_pos new] at same
    exact old (same held rfl ▸ new)
  · intro unheld p q l held held'
    rw [find?_extendLayout] at held held'
    split at held
    · next new =>
        obtain rfl := Option.some.inj held
        split at held'
        · exact (Option.some.inj held').symm
        · next old => exact absurd (unheld q p held' new) old
    · next old =>
        split at held'
        · next new =>
            obtain rfl := Option.some.inj held'
            exact absurd (unheld p q held new) old
        · exact injective held held'

/-- Closing up behind the only holder of a logical index keeps a layout injective. -/
theorem Injective.closed (injective : layout.Injective) {p l : Nat}
    (held : layout.find? p = some l) :
    Layout.Injective (closeLayout l p (layout.erase p)) := by
  have other : ∀ {q k}, layout.find? (openGap p q) = some k → k ≠ l := by
    rintro q k found rfl
    exact openGap_ne p q (injective found held)
  intro q q' k found found'
  rw [find?_closeLayout_erase, Option.map_eq_some_iff] at found found'
  obtain ⟨k₁, stored, equal⟩ := found
  obtain ⟨k₂, stored', equal'⟩ := found'
  have same : k₁ = k₂ := by
    rw [← openGap_closeGap (other stored), ← openGap_closeGap (other stored'), equal, equal']
  subst same
  rw [← closeGap_openGap p q, ← closeGap_openGap p q', injective stored stored']

end Layout

namespace Circuit

variable {S : Type} {c : Circuit S}

/-- In an injective layout, and only there, look-up finds every holder. -/
theorem injective_iff_physicalOf (c : Circuit S) :
    c.initialLayout.Injective ↔
      ∀ l p, c.initialLayout.find? p = some l ↔ c.physicalOf l = .ok p := by
  have found_iff : ∀ l p, c.physicalOf l = .ok p ↔ c.physicalOf? l = some p := by
    intro l p
    unfold physicalOf
    split
    · next found => rw [found, Except.ok.injEq, Option.some.injEq]
    · next missing => simp [missing]
  constructor
  · intro injective l p
    rw [found_iff]
    refine ⟨fun held => ?_, find?_of_physicalOf?⟩
    cases found : c.physicalOf? l with
    | none => exact absurd held (physicalOf?_eq_none_iff.mp found p)
    | some q => rw [injective (find?_of_physicalOf? found) held]
  · intro all p q l held held'
    rw [all] at held held'
    exact Except.ok.inj (held.symm.trans held')

/-! ## Removals -/

/-- A removal that is done erases the first holder, and one that is not leaves the layout. -/
theorem initialLayout_removeQubit (c : Circuit S) (l : Nat) :
    (∃ p a, c.physicalOf? l = some p ∧ (c.removeQubit l).answer = .ok a ∧
      (c.removeQubit l).circuit.initialLayout = c.initialLayout.erase p) ∨
    (∃ failure, (c.removeQubit l).answer = .error failure ∧
      (c.removeQubit l).circuit.initialLayout = c.initialLayout) := by
  rcases removeQubit_outcome c l with ⟨failure, _, _, failed⟩ |
    ⟨p, _, _, _, _, found, _, removed⟩
  · rw [failed]
    exact .inr ⟨failure, rfl, rfl⟩
  · rw [removed]
    exact .inl ⟨p, _, found, rfl, rfl⟩

theorem injective_removeQubit (injective : c.initialLayout.Injective) (l : Nat) :
    (c.removeQubit l).circuit.initialLayout.Injective := by
  rcases initialLayout_removeQubit c l with ⟨p, _, _, _, layout⟩ | ⟨_, _, layout⟩
  · rw [layout]
    exact injective.erase p
  · rw [layout]
    exact injective

/-- Stripping keeps a layout injective: each candidate is the only holder of its logical index, so
it is the one that is removed. -/
theorem injective_stripFrom (injective : c.initialLayout.Injective) (force closing : Bool)
    (candidates : List Nat) :
    (stripFrom force closing c candidates).circuit.initialLayout.Injective := by
  induction candidates generalizing c with
  | nil => exact injective
  | cons p rest ih =>
      rw [stripFrom]
      split
      · exact ih injective
      · next l held =>
          split
          · exact ih injective
          · unfold Outcome.andThen
            rcases initialLayout_removeQubit c l with
              ⟨q, a, found, answer, layout⟩ | ⟨failure, answer, layout⟩
            · obtain rfl := injective (find?_of_physicalOf? found) held
              rw [answer]
              apply ih
              split
              · change Layout.Injective (closeLayout l q (c.removeQubit l).circuit.initialLayout)
                rw [layout]
                exact injective.closed held
              · rw [layout]
                exact injective.erase q
            · rw [answer]
              change (c.removeQubit l).circuit.initialLayout.Injective
              rw [layout]
              exact injective

/-! ## Marks -/

theorem initialLayout_makeAncilla (c : Circuit S) (l p : Nat) :
    (c.makeAncilla l p).circuit.initialLayout = c.initialLayout := by
  have moved : (c.moveToAncillae p).circuit.initialLayout = c.initialLayout := by
    unfold moveToAncillae
    split
    · rfl
    · split <;> rfl
  unfold makeAncilla Outcome.andThen
  split
  · dsimp only
    split <;> exact moved
  · exact moved

theorem initialLayout_markAncillary (c : Circuit S) (lo hi : Nat) :
    (c.markAncillary lo hi).circuit.initialLayout = c.initialLayout :=
  markAncillary_keeps (fun d => d.initialLayout = c.initialLayout)
    (fun d l p same => (initialLayout_makeAncilla d l p).trans same) rfl lo hi

/-! ## Additions -/

/-- Whether an index is one of the `n` that the number of qubits makes the next ones. -/
def IsNext (c : Circuit S) (n i : Nat) : Prop :=
  c.numTotalQubits ≤ i ∧ i < c.numTotalQubits + n

/-- Whether none of the next `n` indices is held by a qubit that is not one of them itself. -/
def NextUnheld (c : Circuit S) (n : Nat) : Prop :=
  ∀ p l, c.initialLayout.find? p = some l → c.IsNext n l → c.IsNext n p

theorem nextUnheld_zero (c : Circuit S) : c.NextUnheld 0 :=
  fun _ _ _ next => absurd next.2 (Nat.not_lt.mpr next.1)

/-- An addition that fails keeps the layout, and one that is done keeps it injective exactly if its
own condition says so. -/
theorem injective_outcome_iff {outcome : Outcome S Unit} {unheld : Prop}
    (injective : c.initialLayout.Injective)
    (possible : (∃ failure, outcome = ⟨c, .error failure⟩) ∨
      ∃ next : Circuit S, outcome = next.done () ∧ (next.initialLayout.Injective ↔ unheld)) :
    outcome.circuit.initialLayout.Injective ↔ (outcome.answer = .ok () → unheld) := by
  rcases possible with ⟨_, rfl⟩ | ⟨next, rfl, injective_iff⟩
  · exact iff_of_true injective fun done => by contradiction
  · exact injective_iff.trans ⟨fun holds _ => holds, fun holds => holds rfl⟩

theorem injective_addQubitRegister_iff (injective : c.initialLayout.Injective) (n : Nat)
    (name : String) :
    (c.addQubitRegister n name).circuit.initialLayout.Injective ↔
      ((c.addQubitRegister n name).answer = .ok () → c.NextUnheld n) := by
  apply injective_outcome_iff injective
  rcases addQubitRegister_cases c n name with failed | ⟨rfl, added⟩ | ⟨_, added⟩
  · exact .inl failed
  · exact .inr ⟨c, added, iff_of_true injective (nextUnheld_zero c)⟩
  · exact .inr ⟨_, added, injective.extend_iff c.numTotalQubits n⟩

theorem injective_addAncillaryRegister_iff (injective : c.initialLayout.Injective) (n : Nat)
    (name : String) :
    (c.addAncillaryRegister n name).circuit.initialLayout.Injective ↔
      ((c.addAncillaryRegister n name).answer = .ok () → c.NextUnheld n) := by
  apply injective_outcome_iff injective
  rcases addAncillaryRegister_cases c n name with failed | ⟨rfl, added⟩ | ⟨_, added⟩
  · exact .inl failed
  · exact .inr ⟨c, added, iff_of_true injective (nextUnheld_zero c)⟩
  · exact .inr ⟨_, added, injective.extend_iff c.numTotalQubits n⟩

theorem injective_addQubit_iff (injective : c.initialLayout.Injective) (l p : Nat)
    (output : Option Nat) :
    (c.addQubit l p output).circuit.initialLayout.Injective ↔
      ((c.addQubit l p output).answer = .ok () → ∀ q, c.initialLayout.find? q ≠ some l) := by
  apply injective_outcome_iff injective
  rcases addQubit_cases c l p output with failed | ⟨free, _, _, added⟩
  · exact .inl failed
  · exact .inr ⟨_, added, injective.insert_iff free⟩

theorem injective_addAncillaryQubit_iff (injective : c.initialLayout.Injective) (p : Nat)
    (output : Option Nat) :
    (c.addAncillaryQubit p output).circuit.initialLayout.Injective ↔
      ((c.addAncillaryQubit p output).answer = .ok () →
        ∀ q, c.initialLayout.find? q ≠ some c.numTotalQubits) := by
  apply injective_outcome_iff injective
  rcases addAncillaryQubit_cases c p output with failed | ⟨free, _, added⟩
  · exact .inl failed
  · exact .inr ⟨_, added, injective.insert_iff free⟩

end Circuit

/-! ## Runs -/

/-- Whether a step, if it adds qubits, gives them logical indices that no other qubit holds. -/
def Step.Unheld (c : Circuit S) : Step S → Prop
  | .addQubitRegister n name => (c.addQubitRegister n name).answer = .ok () → c.NextUnheld n
  | .addAncillaryRegister n name =>
      (c.addAncillaryRegister n name).answer = .ok () → c.NextUnheld n
  | .addQubit logical physical output =>
      (c.addQubit logical physical output).answer = .ok () →
        ∀ q, c.initialLayout.find? q ≠ some logical
  | .addAncillaryQubit physical output =>
      (c.addAncillaryQubit physical output).answer = .ok () →
        ∀ q, c.initialLayout.find? q ≠ some c.numTotalQubits
  | _ => True

namespace Circuit

variable {S : Type} {c : Circuit S}

/-- A step keeps the layout injective exactly if it adds no logical index that another qubit
holds. -/
theorem injective_run_iff (injective : c.initialLayout.Injective) (s : Step S) :
    (s.run c).initialLayout.Injective ↔ s.Unheld c := by
  cases s with
  | addQubitRegister n name => exact injective_addQubitRegister_iff injective n name
  | addClassicalRegister n name =>
      refine iff_of_true ?_ trivial
      rw [Step.run, addClassicalRegister]
      split_ifs <;> exact injective
  | addAncillaryRegister n name => exact injective_addAncillaryRegister_iff injective n name
  | addQubit logical physical output =>
      exact injective_addQubit_iff injective logical physical output
  | addAncillaryQubit physical output =>
      exact injective_addAncillaryQubit_iff injective physical output
  | removeQubit logical => exact iff_of_true (injective_removeQubit injective logical) trivial
  | markAncillary lo hi =>
      refine iff_of_true ?_ trivial
      rw [Step.run, initialLayout_markAncillary]
      exact injective
  | markGarbage lo hi =>
      refine iff_of_true ?_ trivial
      rw [Step.run, markGarbage]
      split
      · exact injective
      · split <;> exact injective
  | unifyRegisters name => exact iff_of_true injective trivial
  | stripIdle force closing =>
      exact iff_of_true (injective_stripFrom injective force closing _) trivial
  | program ops variableNames globalPhase => exact iff_of_true injective trivial

variable [Scalar S]

theorem injective_of_ofConfig? {config : Config} (built : ofConfig? config = some c) :
    c.initialLayout.Injective := by
  have none : (blank config : Circuit S).initialLayout.Injective := fun _ _ _ held => nomatch held
  have all : ((blank config : Circuit S).insertQubits config.numQubits
      config.qregName).initialLayout.Injective :=
    (none.extend_iff 0 config.numQubits).mpr fun _ _ held => nomatch held
  rcases ofConfig?_cases built with ⟨bare, rfl | ⟨_, rfl⟩, rfl | rfl⟩
  · exact none
  · exact none
  · exact all
  · exact all

/-- In a run from a new circuit, no logical qubit is held twice at any point exactly if no step adds
a logical index that another qubit holds.  As long as that is so, look-up finds every holder. -/
theorem injective_throughout_iff {config : Config} (built : ofConfig? config = some c)
    (steps : List (Step S)) :
    ((∀ prior, prior <+: steps → (Step.runAll c prior).initialLayout.Injective) ↔
      ∀ prior s, prior ++ [s] <+: steps → s.Unheld (Step.runAll c prior)) ∧
    ∀ d : Circuit S, d.initialLayout.Injective ↔
      ∀ l p, d.initialLayout.find? p = some l ↔ d.physicalOf l = .ok p := by
  refine ⟨?_, injective_iff_physicalOf⟩
  have initially := injective_of_ofConfig? built
  have step_iff : ∀ (d : Circuit S) (s : Step S), d.initialLayout.Injective →
      (((s.run d).initialLayout.Injective ∧ True) ↔ s.Unheld d) :=
    fun d s injective => (and_iff_left trivial).trans (injective_run_iff injective s)
  refine Iff.trans ?_ (throughout_iff initially step_iff steps)
  exact (and_iff_left fun _ _ _ => trivial).symm

/-- The logical index of a removed qubit is given again, and then the number of qubits is the next
free one. -/
theorem injective_throughout_regiven :
    let c : Circuit Float := (blank Config.default).insertQubits 3 "q"
    let steps : List (Step Float) := [.removeQubit 1, .addQubit 1 7 none, .addAncillaryQubit 5 none]
    (Step.runAll c steps).initialLayout.entries = [(0, 0), (2, 2), (5, 3), (7, 1)] ∧
      ∀ prior, prior <+: steps → (Step.runAll c prior).initialLayout.Injective := by
  intro c steps
  have built : ofConfig? { Config.default with numQubits := 3 } = some c := rfl
  refine ⟨by decide +kernel, (injective_throughout_iff built steps).1.mpr ?_⟩
  refine forall_steps_cons_iff.mpr ⟨trivial, forall_steps_cons_iff.mpr ⟨fun _ => ?_,
    forall_steps_cons_iff.mpr ⟨fun _ => ?_, forall_steps_nil⟩⟩⟩
  · apply physicalOf?_eq_none_iff.mp
    decide +kernel
  · apply physicalOf?_eq_none_iff.mp
    decide +kernel

/-- After the first of two qubits is removed, the number of qubits is the logical index of the
second, which an ancillary qubit is given as well.  Look-up finds one of the two only. -/
theorem not_injective_counted :
    let c : Circuit Float := (blank Config.default).insertQubits 2 "q"
    let last := Step.runAll c [.removeQubit 0, .addAncillaryQubit 5 none]
    last.initialLayout.entries = [(1, 1), (5, 1)] ∧ ¬ last.initialLayout.Injective ∧
      last.physicalOf 1 = .ok 1 := by
  intro c last
  have held : last.initialLayout.find? 1 = some 1 := by decide +kernel
  have held' : last.initialLayout.find? 5 = some 1 := by decide +kernel
  refine ⟨by decide +kernel, fun injective => ?_, by decide +kernel⟩
  exact absurd (injective held held') (by decide)

end Circuit

end QuantumCircuit
