import QuantumCircuit.Proofs.Circuit.Addition
import QuantumCircuit.Proofs.Circuit.Reachable
import QuantumCircuit.Proofs.Circuit.Refusal
import QuantumCircuit.Proofs.Circuit.Removal
import QuantumCircuit.Proofs.Registers.Sizes

/-!
# Counts and sizes of registers

A circuit counts its qubits apart from its registers.  Two things decide which count a step changes:
the register that covers a qubit, and the mark of its logical index.  Where the two disagree, the
counts part from the sizes of the registers, and from then on a count can be lowered below zero.

A removal can only leave the count of qubits too large, and a marking can only leave it too small.
So several of them in a row never make up for each other, and the counts are right at the end only
if every single one of them was right.

The total size of registers is an index, so no count that is larger can be right.  A register that
reaches the last index is counted with its size, but it covers nothing.
-/

namespace QuantumCircuit

open Registers SortedMap

namespace Circuit

variable {S : Type} {c next : Circuit S}

/-- Whether the circuit counts the qubits that are in its registers. -/
structure Counted (c : Circuit S) : Prop where
  /-- The qubits that are not ancillary are those of the quantum registers. -/
  numQubits_eq : c.numQubits = totalSize c.qregs
  /-- The ancillary qubits are those of the ancillary registers. -/
  numAncillae_eq : c.numAncillae = totalSize c.ancregs

/-- Whether the counts of qubits are indices. -/
structure CountsFit (c : Circuit S) : Prop where
  /-- The number of qubits that are not ancillary is one. -/
  numQubits_le : c.numQubits ≤ maxIndex
  /-- The number of ancillary qubits is one. -/
  numAncillae_le : c.numAncillae ≤ maxIndex

theorem Counted.countsFit (counted : c.Counted) : c.CountsFit :=
  ⟨counted.numQubits_eq.trans_le (wrapIndex_le _), counted.numAncillae_eq.trans_le (wrapIndex_le _)⟩

/-- Whether the counts follow the sizes of the registers. -/
structure Tracked (c : Circuit S) : Prop where
  /-- The number of qubits that are not ancillary follows the quantum registers. -/
  qregs : c.qregs.CountedBy c.numQubits
  /-- The number of ancillary qubits follows the ancillary registers. -/
  ancregs : c.ancregs.CountedBy c.numAncillae

/-- Counts that follow the sizes are right as long as they are indices. -/
theorem Tracked.counted (tracked : c.Tracked) (fit : c.CountsFit) : c.Counted :=
  ⟨(tracked.qregs.totalSize_eq fit.numQubits_le).symm,
    (tracked.ancregs.totalSize_eq fit.numAncillae_le).symm⟩

/-! ## Removals -/

/-- Whether a logical qubit that is marked ancillary lies in a quantum register, with the first
physical qubit that holds it.  A quantum register that reaches the last index is not found to cover
the qubit, so its removal is refused and does not touch the counts. -/
def Misplaced (c : Circuit S) (logical : Nat) : Prop :=
  ∃ p, c.physicalOf? logical = some p ∧ c.physicalIsAncillary p = false ∧
    covers c.qregs p = true ∧ c.logicalIsAncillary logical = true

/-- Whether `e` qubits too many are counted as not ancillary, and as many too few as ancillary. -/
structure Exceeds (c : Circuit S) (e : Nat) : Prop where
  /-- There are as many qubits that are not ancillary. -/
  le : e ≤ c.numQubits
  /-- The qubits that are not ancillary are too many. -/
  qregs : c.qregs.CountedBy (c.numQubits - e)
  /-- The ancillary qubits are too few. -/
  ancregs : c.ancregs.CountedBy (c.numAncillae + e)
  /-- The number of qubits that are not ancillary is an index. -/
  numQubits_le : c.numQubits ≤ maxIndex
  /-- The right number of ancillary qubits is an index. -/
  numAncillae_le : c.numAncillae + e ≤ maxIndex

theorem Tracked.exceeds (tracked : c.Tracked) (fit : c.CountsFit) : c.Exceeds 0 :=
  ⟨Nat.zero_le _, tracked.qregs, tracked.ancregs, fit.numQubits_le, fit.numAncillae_le⟩

theorem Exceeds.tracked (exceeds : c.Exceeds 0) : c.Tracked :=
  ⟨exceeds.qregs, exceeds.ancregs⟩

theorem Exceeds.eq_zero {e : Nat} (exceeds : c.Exceeds e) (counted : c.Counted) : e = 0 := by
  have bound := exceeds.le
  have small := exceeds.numQubits_le
  have size := exceeds.qregs.totalSize_eq (by omega)
  have exact := counted.numQubits_eq
  omega

theorem misplaced_iff {l p : Nat} (found : c.physicalOf? l = some p) :
    c.Misplaced l ↔ c.physicalIsAncillary p = false ∧ covers c.qregs p = true ∧
      c.logicalIsAncillary l = true := by
  constructor
  · rintro ⟨q, held, place⟩
    obtain rfl := Option.some.inj (found.symm.trans held)
    exact place
  · exact fun place => ⟨p, found, place⟩

instance (c : Circuit S) (l : Nat) : Decidable (c.Misplaced l) :=
  match found : c.physicalOf? l with
  | none => .isFalse fun ⟨_, held, _⟩ => nomatch found.symm.trans held
  | some _ => decidable_of_iff _ (misplaced_iff found).symm

/-- What a removal does to the counts: a misplaced qubit is taken from the wrong one. -/
theorem Exceeds.removeQubit {e : Nat} (exceeds : c.Exceeds e) (l : Nat) :
    (∃ cause, c.removeQubit l = c.refuse cause ∧ ¬ c.Misplaced l) ∨
    (∃ next a, c.removeQubit l = Circuit.done next a ∧
      (¬ c.Misplaced l ∧ next.Exceeds e ∨ c.Misplaced l ∧ next.Exceeds (e + 1))) ∨
    (∃ left : Circuit S, c.removeQubit l = left.fault ∧ (e ≠ 0 ∨ c.Misplaced l)) := by
  obtain ⟨bound, ofQregs, ofAncregs, numQubits_le, numAncillae_le⟩ := exceeds
  rcases removeQubit_cases c l with ⟨missing, refused⟩ | ⟨p, found, place⟩
  · refine .inl ⟨_, refused, ?_⟩
    rintro ⟨p, found, _⟩
    rw [missing] at found
    contradiction
  rw [misplaced_iff found]
  rcases place with ⟨outside, uncovered, refused⟩ | ⟨inside, name, ancregs, removed, released⟩ |
    ⟨outside, covered, name, qregs, removed, released⟩
  · exact .inl ⟨_, refused, by simp [uncovered]⟩
  · obtain ⟨positive, ofRest⟩ := ofAncregs.remove removed
    rw [released, dropAncilla]
    split
    · next none =>
        change c.numAncillae = 0 at none
        exact .inr (.inr ⟨_, rfl, .inl (by omega)⟩)
    · next some =>
        change c.numAncillae ≠ 0 at some
        have less : c.numAncillae + e - 1 = c.numAncillae - 1 + e := by omega
        refine .inr (.inl ⟨_, _, rfl, .inl ⟨by simp [inside], bound, ofQregs, less ▸ ofRest,
          numQubits_le, ?_⟩⟩)
        change c.numAncillae - 1 + e ≤ maxIndex
        omega
  · obtain ⟨positive, ofRest⟩ := ofQregs.remove removed
    rw [released]
    cases marked : c.logicalIsAncillary l with
    | true =>
        rw [if_pos rfl, dropAncilla]
        split
        · exact .inr (.inr ⟨_, rfl, .inr ⟨outside, covered, rfl⟩⟩)
        · next some =>
            change c.numAncillae ≠ 0 at some
            have kept : c.numAncillae + e = c.numAncillae - 1 + (e + 1) := by omega
            refine .inr (.inl ⟨_, _, rfl, .inr ⟨⟨outside, covered, rfl⟩, ?_, ofRest,
              kept ▸ ofAncregs, numQubits_le, kept ▸ numAncillae_le⟩⟩)
            change e + 1 ≤ c.numQubits
            omega
    | false =>
        have some : c.numQubits ≠ 0 := by omega
        have less : c.numQubits - e - 1 = c.numQubits - 1 - e := by omega
        rw [if_neg Bool.false_ne_true, dropQubit, if_neg some]
        refine .inr (.inl ⟨_, _, rfl, .inl ⟨by simp, ?_, less ▸ ofRest, ofAncregs, ?_,
          numAncillae_le⟩⟩)
        · change e ≤ c.numQubits - 1
          omega
        · exact (Nat.sub_le _ _).trans numQubits_le

/-! ## Stripping -/

/-- The removals that stripping makes, each with the circuit on which it is made. -/
def removalsFrom (force closing : Bool) (c : Circuit S) : List Nat → List (Circuit S × Nat)
  | [] => []
  | physical :: rest =>
      match c.initialLayout.find? physical with
      | none => removalsFrom force closing c rest
      | some logical =>
          if !c.isIdle physical || (!force && c.neededForOutput logical physical) then
            removalsFrom force closing c rest
          else
            (c, logical) ::
              match c.removeQubit logical with
              | ⟨c, .ok _⟩ =>
                  removalsFrom force closing (if closing then c.closeUp logical physical else c)
                    rest
              | ⟨_, .error _⟩ => []

/-- Closing up does not touch the counts. -/
theorem Exceeds.closeUp {e : Nat} (exceeds : c.Exceeds e) (l p : Nat) :
    (c.closeUp l p).Exceeds e :=
  ⟨exceeds.le, exceeds.qregs.closeRegisters p, exceeds.ancregs.closeRegisters p,
    exceeds.numQubits_le, exceeds.numAncillae_le⟩

/-- Stripping breaks off only if the counts were wrong before or some removal is misplaced.  Otherwise
it leaves the counts as wrong as they were exactly if none is. -/
theorem Exceeds.stripFrom {e : Nat} (exceeds : c.Exceeds e) (force closing : Bool)
    (candidates : List Nat) :
    let stripped := stripFrom force closing c candidates
    let placed := ∀ r ∈ removalsFrom force closing c candidates, ¬ r.1.Misplaced r.2
    (stripped.answer ≠ .error .fault ∧
      ∃ k, stripped.circuit.Exceeds (e + k) ∧ (k = 0 ↔ placed)) ∨
    (stripped.answer = .error .fault ∧ (placed → e ≠ 0)) := by
  induction candidates generalizing c e with
  | nil => exact .inl ⟨nofun, 0, exceeds, iff_of_true rfl (List.forall_mem_nil _)⟩
  | cons p rest ih =>
      rw [Circuit.stripFrom, removalsFrom]
      cases held : c.initialLayout.find? p with
      | none => exact ih exceeds
      | some l =>
          by_cases kept : (!c.isIdle p || (!force && c.neededForOutput l p)) = true
          · simp only [if_pos kept]
            exact ih exceeds
          · simp only [if_neg kept, List.forall_mem_cons]
            rcases exceeds.removeQubit l with ⟨cause, refused, placed⟩ |
              ⟨next, a, removed, placement⟩ | ⟨left, broken, misplaced⟩
            · rw [refused]
              refine .inl ⟨?_, 0, exceeds, iff_of_true rfl ⟨placed, List.forall_mem_nil _⟩⟩
              simp [refuse, Outcome.andThen]
            · have closed : ∀ {k}, next.Exceeds k →
                  (if closing then next.closeUp l p else next).Exceeds k := by
                intro k nextExceeds
                split
                · exact nextExceeds.closeUp l p
                · exact nextExceeds
              rw [removed]
              rcases placement with ⟨placed, nextExceeds⟩ | ⟨misplaced, nextExceeds⟩
              · simp only [placed, not_false_eq_true, true_and]
                exact ih (closed nextExceeds)
              · simp only [misplaced, not_true_eq_false, false_and]
                rcases ih (closed nextExceeds) with ⟨unbroken, k, lastExceeds, -⟩ | ⟨broken, -⟩
                · refine .inl ⟨unbroken, k + 1, ?_, iff_of_false (Nat.succ_ne_zero k) id⟩
                  rw [Nat.add_comm k, ← Nat.add_assoc]
                  exact lastExceeds
                · exact .inr ⟨broken, False.elim⟩
            · rw [broken]
              exact .inr ⟨rfl, fun placed => misplaced.resolve_right placed.1⟩

/-! ## Marks -/

/-- Whether `e` qubits too few are counted as not ancillary, and as many too many as ancillary. -/
structure Lacks (c : Circuit S) (e : Nat) : Prop where
  /-- There are as many ancillary qubits. -/
  le : e ≤ c.numAncillae
  /-- The qubits that are not ancillary are too few. -/
  qregs : c.qregs.CountedBy (c.numQubits + e)
  /-- The ancillary qubits are too many. -/
  ancregs : c.ancregs.CountedBy (c.numAncillae - e)
  /-- The right number of qubits that are not ancillary is an index. -/
  numQubits_le : c.numQubits + e ≤ maxIndex

theorem Tracked.lacks (tracked : c.Tracked) (fit : c.CountsFit) : c.Lacks 0 :=
  ⟨Nat.zero_le _, tracked.qregs, tracked.ancregs, fit.numQubits_le⟩

theorem Lacks.tracked (lacks : c.Lacks 0) : c.Tracked :=
  ⟨lacks.qregs, lacks.ancregs⟩

theorem Lacks.eq_zero {e : Nat} (lacks : c.Lacks e) (counted : c.Counted) : e = 0 := by
  have size := lacks.qregs.totalSize_eq lacks.numQubits_le
  have exact := counted.numQubits_eq
  omega

/-- What marking a qubit does to the counts: it is moved to the ancillary ones, also if the
registers do not move it. -/
theorem Lacks.makeAncilla {e : Nat} (lacks : c.Lacks e) (l p : Nat) :
    (∃ next : Circuit S, c.makeAncilla l p = next.done () ∧
      (∀ q, q ≠ p → covers next.qregs q = covers c.qregs q) ∧
      (covers c.qregs p = true ∧ next.Lacks e ∨ covers c.qregs p = false ∧ next.Lacks (e + 1))) ∨
    (∃ left : Circuit S, c.makeAncilla l p = left.fault ∧
      (e ≠ 0 ∨ covers c.qregs p = false)) := by
  obtain ⟨bound, ofQregs, ofAncregs, numQubits_le⟩ := lacks
  rw [Circuit.makeAncilla, moveToAncillae]
  cases covered : covers c.qregs p with
  | false =>
      have missing := locate?_eq_none_iff.mpr (covers_eq_false_iff.mp covered)
      simp only [missing, Outcome.andThen, done]
      split
      · exact .inr ⟨_, rfl, .inr trivial⟩
      · next some =>
          have kept : c.numQubits + e = c.numQubits - 1 + (e + 1) := by omega
          have keptA : c.numAncillae - e = c.numAncillae + 1 - (e + 1) := by omega
          exact .inl ⟨_, rfl, fun _ _ => rfl, .inr ⟨trivial, Nat.succ_le_succ bound,
            kept ▸ ofQregs, keptA ▸ ofAncregs, kept ▸ numQubits_le⟩⟩
  | true =>
      rcases exists_takeOut (covers_iff.mp covered) with ⟨name, offset, qregs, located, removed⟩
      obtain ⟨positive, ofRest⟩ := ofQregs.remove removed
      simp only [located, removed, Outcome.andThen, done]
      split
      · exact .inr ⟨_, rfl, .inl (by omega)⟩
      · have less : c.numQubits + e - 1 = c.numQubits - 1 + e := by omega
        have more : c.numAncillae - e + 1 = c.numAncillae + 1 - e := by omega
        refine .inl ⟨_, rfl, fun q other => ?_, .inl ⟨trivial, Nat.le_succ_of_le bound,
          less ▸ ofRest, more ▸ ofAncregs.add p c.ancregName, ?_⟩⟩
        · have before := coverCount_remove removed q
          rw [if_neg other, Nat.add_zero] at before
          change covers qregs q = covers c.qregs q
          rw [Bool.eq_iff_iff, covers_iff, covers_iff, before]
        · change c.numQubits - 1 + e ≤ maxIndex
          omega

/-- Marking breaks off only if the counts were wrong before or quantum registers do not cover a qubit
that is marked.  Otherwise it leaves the counts as wrong as they were exactly if they cover all. -/
theorem Lacks.makeAncillae {e : Nat} (lacks : c.Lacks e) {moves : List (Nat × Nat)}
    (distinct : (moves.map Prod.snd).Nodup) :
    let marked := c.makeAncillae moves
    let placed := ∀ m ∈ moves, covers c.qregs m.2 = true
    (marked.answer ≠ .error .fault ∧ ∃ k, marked.circuit.Lacks (e + k) ∧ (k = 0 ↔ placed)) ∨
    (marked.answer = .error .fault ∧ (placed → e ≠ 0)) := by
  induction moves generalizing c e with
  | nil => exact .inl ⟨nofun, 0, lacks, iff_of_true rfl (List.forall_mem_nil _)⟩
  | cons move rest ih =>
      rcases move with ⟨l, p⟩
      rcases List.nodup_cons.mp distinct with ⟨notMem, distinctRest⟩
      rw [Circuit.makeAncillae, List.forall_mem_cons]
      rcases lacks.makeAncilla l p with ⟨next, made, others, placement⟩ | ⟨left, broken, misplaced⟩
      · rw [made]
        rcases placement with ⟨covered, nextLacks⟩ | ⟨uncovered, nextLacks⟩
        · have later : (∀ m ∈ rest, covers next.qregs m.2 = true) ↔
              ∀ m ∈ rest, covers c.qregs m.2 = true := by
            refine forall₂_congr fun m mem => ?_
            rw [others]
            rintro rfl
            exact notMem (List.mem_map.mpr ⟨m, mem, rfl⟩)
          rw [and_iff_right covered, ← later]
          exact ih nextLacks distinctRest
        · rw [uncovered]
          simp only [Bool.false_eq_true, false_and]
          rcases ih nextLacks distinctRest with ⟨unbroken, k, lastLacks, -⟩ | ⟨broken, -⟩
          · refine .inl ⟨unbroken, k + 1, ?_, iff_of_false (Nat.succ_ne_zero k) id⟩
            rw [Nat.add_comm k, ← Nat.add_assoc]
            exact lastLacks
          · exact .inr ⟨broken, False.elim⟩
      · rw [broken]
        refine .inr ⟨rfl, fun placed => misplaced.resolve_right ?_⟩
        exact ne_false_of_eq_true placed.1

/-- The qubits that are found for a list of logical ones, each after its logical one. -/
theorem physicalOf?_of_mapM {logicals : List Nat} {moves : List (Nat × Nat)}
    (found : logicals.mapM (fun l => (c.physicalOf l).map fun p => (l, p)) = .ok moves) :
    moves.map Prod.fst = logicals ∧ ∀ m ∈ moves, c.physicalOf? m.1 = some m.2 := by
  induction logicals generalizing moves with
  | nil =>
      obtain rfl := Except.ok.inj found
      exact ⟨rfl, fun m mem => nomatch mem⟩
  | cons l rest ih =>
      rw [List.mapM_cons, physicalOf] at found
      cases holder : c.physicalOf? l with
      | none =>
          rw [holder] at found
          contradiction
      | some p =>
          rw [holder] at found
          cases others : rest.mapM fun l => (c.physicalOf l).map fun p => (l, p) with
          | error cause =>
              rw [others] at found
              contradiction
          | ok later =>
              rw [others] at found
              obtain rfl := Except.ok.inj found
              obtain ⟨logicals, held⟩ := ih others
              refine ⟨by rw [List.map_cons, logicals], List.forall_mem_cons.mpr ⟨holder, held⟩⟩

/-- The moves of a range are those of its unmarked logical qubits, and no physical one is moved
twice. -/
theorem mem_ancillaMoves {lo hi : Nat} {moves : List (Nat × Nat)}
    (located : c.ancillaMoves lo hi = .ok moves) :
    (∀ l p, (l, p) ∈ moves ↔
      (lo ≤ l ∧ l ≤ hi) ∧ c.logicalIsAncillary l = false ∧ c.physicalOf? l = some p) ∧
    (moves.map Prod.snd).Nodup := by
  obtain ⟨logicals, held⟩ := physicalOf?_of_mapM located
  have mem_iff : ∀ l, l ∈ moves.map Prod.fst ↔
      (lo ≤ l ∧ l ≤ hi) ∧ c.logicalIsAncillary l = false := by
    intro l
    rw [logicals, List.mem_filter, List.mem_range'_1, Bool.not_eq_true']
    refine and_congr_left fun _ => ?_
    omega
  constructor
  · intro l p
    rw [← and_assoc, ← mem_iff, List.mem_map]
    constructor
    · exact fun mem => ⟨⟨(l, p), mem, rfl⟩, held (l, p) mem⟩
    · rintro ⟨⟨⟨l', p'⟩, mem, rfl⟩, found⟩
      obtain rfl := Option.some.inj ((held (l', p') mem).symm.trans found)
      exact mem
  · have distinct : (moves.map Prod.fst).Nodup := by
      rw [logicals]
      exact (List.nodup_range' 1).filter _
    refine (List.Nodup.of_map Prod.fst distinct).map_on ?_
    rintro ⟨l, p⟩ mem ⟨l', p'⟩ mem' same
    obtain rfl : p = p' := same
    have first := find?_of_physicalOf? (held (l, p) mem)
    rw [find?_of_physicalOf? (held (l', p) mem')] at first
    obtain rfl : l' = l := Option.some.inj first
    rfl

/-! ## Additions -/

theorem tracked_blank [Scalar S] (config : Config) : (blank config : Circuit S).Tracked :=
  ⟨.empty, .empty⟩

theorem Tracked.insertQubits (tracked : c.Tracked) (n : Nat) {name : String}
    (unblocked : blocked c.qregs name c.numTotalQubits = false) :
    (c.insertQubits n name).Tracked :=
  ⟨tracked.qregs.growRegister n unblocked, tracked.ancregs⟩

theorem Tracked.insertAncillae (tracked : c.Tracked) (n : Nat) {name : String}
    (unblocked : blocked c.ancregs name c.numTotalQubits = false) :
    (c.insertAncillae n name).Tracked :=
  ⟨tracked.qregs, tracked.ancregs.growRegister n unblocked⟩

theorem Tracked.addQubitRegister (tracked : c.Tracked) (n : Nat) (name : String) :
    (c.addQubitRegister n name).circuit.Tracked := by
  rcases addQubitRegister_cases c n name with ⟨_, failed⟩ | ⟨_, added⟩ | ⟨unblocked, added⟩
  · rw [failed]
    exact tracked
  · rw [added]
    exact tracked
  · rw [added]
    exact tracked.insertQubits n unblocked

theorem Tracked.addAncillaryRegister (tracked : c.Tracked) (n : Nat) (name : String) :
    (c.addAncillaryRegister n name).circuit.Tracked := by
  rcases addAncillaryRegister_cases c n name with ⟨_, failed⟩ | ⟨_, added⟩ | ⟨unblocked, added⟩
  · rw [failed]
    exact tracked
  · rw [added]
    exact tracked
  · rw [added]
    exact tracked.insertAncillae n unblocked

theorem Tracked.addQubit (tracked : c.Tracked) (l p : Nat) (output : Option Nat) :
    (c.addQubit l p output).circuit.Tracked := by
  rcases addQubit_cases c l p output with ⟨_, failed⟩ | ⟨_, _, _, added⟩
  · rw [failed]
    exact tracked
  · rw [added]
    exact ⟨tracked.qregs.add p c.qregName, tracked.ancregs⟩

theorem Tracked.addAncillaryQubit (tracked : c.Tracked) (p : Nat) (output : Option Nat) :
    (c.addAncillaryQubit p output).circuit.Tracked := by
  rcases addAncillaryQubit_cases c p output with ⟨_, failed⟩ | ⟨_, _, added⟩
  · rw [failed]
    exact tracked
  · rw [added]
    exact ⟨tracked.qregs, tracked.ancregs.add p c.ancregName⟩

/-- One register over all qubits has their number, whatever was counted before. -/
theorem tracked_unifyRegisters (c : Circuit S) (name : String)
    (small : (c.unifyRegisters name).numQubits ≤ maxIndex) : (c.unifyRegisters name).Tracked := by
  have total : c.numTotalQubits ≤ maxIndex := small
  refine ⟨?_, .empty⟩
  change CountedBy (if 0 < c.numTotalQubits && (index? c.numTotalQubits).isSome then _ else _) _
  simp only [Bool.and_eq_true, decide_eq_true_eq, isSome_index?]
  split
  · exact .single name ⟨0, c.numTotalQubits⟩
  · next none =>
      have zero : c.numTotalQubits = 0 := by omega
      change CountedBy .empty c.numTotalQubits
      rw [zero]
      exact .empty

theorem tracked_of_ofConfig? [Scalar S] {config : Config} (built : ofConfig? config = some c) :
    c.Tracked ∧ c.CountsFit := by
  obtain ⟨small, -⟩ := ofConfig?_le built
  have qubits :
      ((blank config : Circuit S).insertQubits config.numQubits config.qregName).Tracked :=
    (tracked_blank config).insertQubits _ rfl
  have numQubits_le : 0 + config.numQubits ≤ maxIndex := (Nat.zero_add _).trans_le small
  rcases ofConfig?_cases built with ⟨bare, rfl | ⟨_, rfl⟩, rfl | rfl⟩
  · exact ⟨tracked_blank config, Nat.zero_le _, Nat.zero_le _⟩
  · exact ⟨⟨.empty, .empty⟩, Nat.zero_le _, Nat.zero_le _⟩
  · exact ⟨qubits, numQubits_le, Nat.zero_le _⟩
  · exact ⟨⟨qubits.qregs, qubits.ancregs⟩, numQubits_le, Nat.zero_le _⟩

end Circuit

/-! ## Runs -/

namespace Step

/-- Whether a step breaks off because it would lower a count below zero. -/
def Underflows (c : Circuit S) : Step S → Prop
  | .removeQubit logical => (c.removeQubit logical).answer = .error .fault
  | .markAncillary lo hi => (c.markAncillary lo hi).answer = .error .fault
  | .stripIdle force closing => (c.stripIdle force closing).answer = .error .fault
  | _ => False

/-- Whether a step takes qubits from the registers of their marks only: it removes no misplaced
qubit, also on the way of stripping, and it marks no qubit outside of the quantum registers. -/
def Placed (c : Circuit S) : Step S → Prop
  | .removeQubit logical => ¬ c.Misplaced logical
  | .markAncillary lo hi =>
      (∃ cause, (c.markAncillary lo hi).answer = .error (.refused cause)) ∨
        ∀ l p, lo ≤ l → l ≤ hi → c.logicalIsAncillary l = false → c.physicalOf? l = some p →
          covers c.qregs p = true
  | .stripIdle force closing =>
      ∀ r ∈ Circuit.removalsFrom force closing c c.initialLayout.keys.reverse,
        ¬ r.1.Misplaced r.2
  | _ => True

end Step

namespace Circuit

variable {S : Type} {c : Circuit S}

/-- What a step does to counts that are right: it breaks off or leaves them wrong exactly if it takes
a qubit from a register other than that of its mark. -/
structure Accounts (c : Circuit S) (s : Step S) : Prop where
  /-- Qubits are taken from the registers of their marks. -/
  placed : s.Placed c → ¬ s.Underflows c ∧ ((s.run c).CountsFit → (s.run c).Tracked)
  /-- They are not. -/
  misplaced : ¬ s.Placed c → ¬ s.Underflows c → ¬ (s.run c).Counted

/-- Steps that never lower a count. -/
theorem accounts_of_tracked {s : Step S} (unbroken : ¬ s.Underflows c) (placed : s.Placed c)
    (next : (s.run c).CountsFit → (s.run c).Tracked) : c.Accounts s :=
  ⟨fun _ => ⟨unbroken, next⟩, fun misplaced => absurd placed misplaced⟩

theorem Tracked.accounts_removeQubit (tracked : c.Tracked) (fit : c.CountsFit) (l : Nat) :
    c.Accounts (.removeQubit l) := by
  rcases (tracked.exceeds fit).removeQubit l with ⟨cause, refused, placed⟩ |
    ⟨next, a, removed, placement⟩ | ⟨left, broken, misplaced⟩
  · refine accounts_of_tracked ?_ placed fun _ => ?_
    · rw [Step.Underflows, refused]
      exact nofun
    · rw [Step.run, refused]
      exact tracked
  · have unbroken : ¬ (Step.removeQubit l).Underflows c := by
      rw [Step.Underflows, removed]
      exact nofun
    rcases placement with ⟨placed, exceeds⟩ | ⟨misplaced, exceeds⟩
    · refine accounts_of_tracked unbroken placed fun _ => ?_
      rw [Step.run, removed]
      exact exceeds.tracked
    · refine ⟨fun placed => absurd misplaced placed, fun _ _ counted => ?_⟩
      rw [Step.run, removed] at counted
      exact Nat.succ_ne_zero 0 (exceeds.eq_zero counted)
  · have underflows : (Step.removeQubit l).Underflows c := by
      rw [Step.Underflows, broken]
      rfl
    have misplaced := misplaced.resolve_left fun some => some rfl
    exact ⟨fun placed => absurd misplaced placed, fun _ unbroken => absurd underflows unbroken⟩

theorem Tracked.accounts_stripIdle (tracked : c.Tracked) (fit : c.CountsFit)
    (force closing : Bool) : c.Accounts (.stripIdle force closing) := by
  rcases (tracked.exceeds fit).stripFrom force closing c.initialLayout.keys.reverse with
    ⟨unbroken, k, exceeds, placed_iff⟩ | ⟨broken, misplaced⟩
  · rw [Nat.zero_add] at exceeds
    refine ⟨fun placed => ⟨unbroken, fun _ => ?_⟩, fun misplaced _ counted => ?_⟩
    · obtain rfl := placed_iff.mpr placed
      exact exceeds.tracked
    · exact misplaced (placed_iff.mp (exceeds.eq_zero counted))
  · exact ⟨fun placed => absurd rfl (misplaced placed), fun _ unbroken => absurd broken unbroken⟩

theorem Tracked.accounts_markAncillary (tracked : c.Tracked) (fit : c.CountsFit) (lo hi : Nat) :
    c.Accounts (.markAncillary lo hi) := by
  have refusal : ∀ cause, c.markAncillary lo hi = c.refuse cause →
      c.Accounts (.markAncillary lo hi) := by
    intro cause refused
    refine accounts_of_tracked ?_ (.inl ⟨cause, congrArg Outcome.answer refused⟩) fun _ => ?_
    · rw [Step.Underflows, refused]
      exact nofun
    · rw [Step.run, refused]
      exact tracked
  cases inRange : c.rangeError? lo hi with
  | some cause => exact refusal cause (by rw [Circuit.markAncillary, inRange])
  | none =>
      cases located : c.ancillaMoves lo hi with
      | error cause => exact refusal cause (by simp only [Circuit.markAncillary, inRange, located])
      | ok moves =>
          obtain ⟨mem_iff, distinct⟩ := mem_ancillaMoves located
          have made : c.markAncillary lo hi = c.makeAncillae moves.reverse := by
            simp only [Circuit.markAncillary, inRange, located]
          have reversed : (moves.reverse.map Prod.snd).Nodup := by
            rw [List.map_reverse, List.nodup_reverse]
            exact distinct
          have placed_iff : (Step.markAncillary lo hi).Placed c ↔
              ∀ m ∈ moves.reverse, covers c.qregs m.2 = true := by
            rw [Step.Placed, made]
            constructor
            · rintro (⟨cause, refused⟩ | covered)
              · exact absurd refused (makeAncillae_unrefused c moves.reverse cause)
              · intro m mem
                obtain ⟨⟨low, high⟩, unmarked, found⟩ :=
                  (mem_iff m.1 m.2).mp (List.mem_reverse.mp mem)
                exact covered m.1 m.2 low high unmarked found
            · refine fun covered => .inr fun l p low high unmarked found => ?_
              exact covered (l, p)
                (List.mem_reverse.mpr ((mem_iff l p).mpr ⟨⟨low, high⟩, unmarked, found⟩))
          rcases (tracked.lacks fit).makeAncillae reversed with
            ⟨unbroken, k, lacks, covered_iff⟩ | ⟨broken, uncovered⟩
          · rw [Nat.zero_add] at lacks
            have unbroken : ¬ (Step.markAncillary lo hi).Underflows c := by
              rw [Step.Underflows, made]
              exact unbroken
            refine ⟨fun placed => ⟨unbroken, fun _ => ?_⟩, fun misplaced _ counted => ?_⟩
            · obtain rfl := covered_iff.mpr (placed_iff.mp placed)
              rw [Step.run, made]
              exact lacks.tracked
            · rw [Step.run, made] at counted
              exact misplaced (placed_iff.mpr (covered_iff.mp (lacks.eq_zero counted)))
          · have underflows : (Step.markAncillary lo hi).Underflows c := by
              rw [Step.Underflows, made]
              exact broken
            exact ⟨fun placed => absurd rfl (uncovered (placed_iff.mp placed)),
              fun _ unbroken => absurd underflows unbroken⟩

theorem Tracked.accounts (tracked : c.Tracked) (fit : c.CountsFit) (s : Step S) :
    c.Accounts s := by
  have always : ∀ {d : Circuit S}, d.Tracked → d.CountsFit → d.Tracked := fun after _ => after
  cases s with
  | addQubitRegister n name =>
      exact accounts_of_tracked id trivial (always (tracked.addQubitRegister n name))
  | addClassicalRegister n name =>
      refine accounts_of_tracked id trivial (always ?_)
      rw [Step.run, addClassicalRegister]
      split_ifs
      · exact tracked
      · exact tracked
      · exact ⟨tracked.qregs, tracked.ancregs⟩
      · exact tracked
  | addAncillaryRegister n name =>
      exact accounts_of_tracked id trivial (always (tracked.addAncillaryRegister n name))
  | addQubit logical physical output =>
      exact accounts_of_tracked id trivial (always (tracked.addQubit logical physical output))
  | addAncillaryQubit physical output =>
      exact accounts_of_tracked id trivial (always (tracked.addAncillaryQubit physical output))
  | removeQubit logical => exact tracked.accounts_removeQubit fit logical
  | markAncillary lo hi => exact tracked.accounts_markAncillary fit lo hi
  | markGarbage lo hi =>
      refine accounts_of_tracked id trivial (always ?_)
      rw [Step.run, markGarbage]
      split
      · exact tracked
      · split
        · exact tracked
        · exact ⟨tracked.qregs, tracked.ancregs⟩
  | unifyRegisters name =>
      exact accounts_of_tracked id trivial fun fitNext =>
        tracked_unifyRegisters c name fitNext.numQubits_le
  | stripIdle force closing => exact tracked.accounts_stripIdle fit force closing
  | program ops variableNames globalPhase =>
      exact accounts_of_tracked id trivial (always ⟨tracked.qregs, tracked.ancregs⟩)

/-- A step keeps the counts right, and lowers none below zero, exactly if it takes qubits from the
registers of their marks only and leaves counts that are indices. -/
theorem Tracked.run_iff (tracked : c.Tracked) (fit : c.CountsFit) (s : Step S) :
    ((s.run c).Counted ∧ ¬ s.Underflows c) ↔ s.Placed c ∧ (s.run c).CountsFit := by
  have accounts := tracked.accounts fit s
  constructor
  · rintro ⟨counted, unbroken⟩
    refine ⟨?_, counted.countsFit⟩
    by_contra misplaced
    exact accounts.misplaced misplaced unbroken counted
  · rintro ⟨placed, fitNext⟩
    obtain ⟨unbroken, next⟩ := accounts.placed placed
    exact ⟨(next fitNext).counted fitNext, unbroken⟩

variable [Scalar S]

/-- In a run from a new circuit, the counts are the sizes of the registers at every point, and no
step lowers a count below zero, exactly if all steps take qubits from the registers of their marks
only, and leave counts that are indices. -/
theorem counted_throughout_iff {config : Config} (built : ofConfig? config = some c)
    (steps : List (Step S)) :
    ((∀ prior, prior <+: steps → (Step.runAll c prior).Counted) ∧
      ∀ prior s, prior ++ [s] <+: steps → ¬ s.Underflows (Step.runAll c prior)) ↔
    ∀ prior s, prior ++ [s] <+: steps →
      s.Placed (Step.runAll c prior) ∧ (s.run (Step.runAll c prior)).CountsFit := by
  obtain ⟨tracked, fit⟩ := tracked_of_ofConfig? built
  exact throughout_iff_of_invariant tracked (tracked.counted fit)
    (fun _ s tracked counted => tracked.run_iff counted.countsFit s)
    (fun _ s tracked counted sound =>
      ((tracked.accounts counted.countsFit s).placed sound.1).2 sound.2) steps

/-- Of three qubits the last is made ancillary, the second is removed, and the others are
stripped. -/
theorem counted_throughout_marked :
    let c : Circuit Float := (blank Config.default).insertQubits 3 "q"
    let steps : List (Step Float) := [.markAncillary 2 2, .removeQubit 1, .stripIdle true false]
    (Step.runAll c [.markAncillary 2 2, .removeQubit 1]).ancregs.entries = [("anc", ⟨2, 1⟩)] ∧
    (∀ prior, prior <+: steps → (Step.runAll c prior).Counted) ∧
      ∀ prior s, prior ++ [s] <+: steps → ¬ s.Underflows (Step.runAll c prior) := by
  intro c steps
  have built : ofConfig? { Config.default with numQubits := 3 } = some c := rfl
  refine ⟨by decide +kernel, (counted_throughout_iff built steps).mpr ?_⟩
  let sound (d : Circuit Float) (s : Step Float) : Prop := s.Placed d ∧ (s.run d).CountsFit
  change ∀ prior s, prior ++ [s] <+: steps → sound (Step.runAll c prior) s
  refine forall_steps_cons_iff.mpr ⟨?_, forall_steps_cons_iff.mpr ⟨?_,
    forall_steps_cons_iff.mpr ⟨?_, forall_steps_nil⟩⟩⟩
  · refine ⟨.inr fun l p low high _ found => ?_, by decide +kernel, by decide +kernel⟩
    obtain rfl : l = 2 := Nat.le_antisymm high low
    have held : c.physicalOf? 2 = some 2 := by decide +kernel
    obtain rfl := Option.some.inj (held.symm.trans found)
    decide +kernel
  · refine ⟨?_, by decide +kernel, by decide +kernel⟩
    change ¬ (Step.run c (.markAncillary 2 2)).Misplaced 1
    decide +kernel
  · refine ⟨?_, by decide +kernel, by decide +kernel⟩
    change ∀ r ∈ removalsFrom true false _ _, ¬ r.1.Misplaced r.2
    decide +kernel

/-- Two qubits and an ancillary one: after the first is removed, the mark of the ancillary one
stands at the index of the second.  So the second is taken from the ancillae, and there is none left
to count when the ancillary qubit itself is removed. -/
theorem not_counted_shifted :
    let c : Circuit Float := (blank Config.default).insertQubits 2 "q"
    let last := Step.runAll c [.addAncillaryRegister 1 "anc", .removeQubit 0, .removeQubit 1]
    last.numAncillae = 0 ∧ totalSize last.ancregs = 1 ∧ ¬ last.Counted ∧
      (Step.removeQubit 2).Underflows last := by
  intro c last
  have none : last.numAncillae = 0 := by decide +kernel
  have one : totalSize last.ancregs = 1 := by decide +kernel
  have broken : (last.removeQubit 2).answer = .error .fault := by decide +kernel
  refine ⟨none, one, fun counted => ?_, broken⟩
  have equal := counted.numAncillae_eq
  rw [none, one] at equal
  exact absurd equal Nat.zero_ne_one

end Circuit

end QuantumCircuit
