import QuantumCircuit.Proofs.Circuit.Counts
import QuantumCircuit.Proofs.Circuit.Flattening
import QuantumCircuit.Proofs.Circuit.Gapless
import QuantumCircuit.Proofs.Circuit.Operands
import QuantumCircuit.Proofs.Circuit.Refusal
import QuantumCircuit.Proofs.Circuit.Strip

/-!
# What barriers and measurements span

A barrier, and the measurement of a whole circuit, are meant for the qubits that are not ancillary.
Both take the indices below the number of these qubits.  In a compact circuit these are the right
ones exactly if the ancillary qubits come last.  Registers that are added, and strips, keep it so;
marks keep it so exactly if they take the highest qubits that are not ancillary yet.
-/

namespace QuantumCircuit

open Registers SortedMap

variable {S : Type}

namespace Circuit

variable {c d : Circuit S}

/-! ## Ancillary qubits last -/

/-- Whether every qubit of a quantum register lies below every qubit of an ancillary one. -/
def AncillaeLast (c : Circuit S) : Prop :=
  ∀ q a, covers c.qregs q = true → covers c.ancregs a = true → q < a

/-- A physical qubit of a compact circuit lies in a quantum register if in no ancillary one. -/
theorem Compact.covers_qregs_iff (compact : c.Compact) {p : Nat} :
    covers c.qregs p = true ↔ p < c.numTotalQubits ∧ covers c.ancregs p = false := by
  have once := compact.tiles p
  rw [covers_iff, covers_eq_false_iff]
  split at once <;> omega

theorem Compact.covers_ancregs_lt (compact : c.Compact) {p : Nat}
    (covered : covers c.ancregs p = true) : p < c.numTotalQubits := by
  by_contra above
  exact covers_iff.mp covered (compact.uncovered (Nat.le_of_not_lt above)).2

/-- The qubits of quantum registers as a set have as many members as are counted. -/
theorem Compact.card_covered (compact : c.Compact) :
    ((Finset.range c.numTotalQubits).filter fun p => covers c.qregs p = true).card =
      c.numQubits := by
  rw [← compact.totalSize_qregs, totalSize_eq_sum compact.fit_qregs
      (fun i => (compact.coverCount_le i).1) fun _ above => (compact.uncovered above).1,
    Finset.card_filter]
  refine Finset.sum_congr rfl fun p _ => ?_
  have atMost := (compact.coverCount_le p).1
  by_cases covered : covers c.qregs p = true
  · have inside := covers_iff.mp covered
    rw [if_pos covered]
    omega
  · rw [if_neg covered, covers_eq_false_iff.mp (Bool.eq_false_of_not_eq_true covered)]

/-- The qubits of quantum registers are the indices below their number exactly if the ancillary ones
come last. -/
theorem Compact.ancillaeLast_iff (compact : c.Compact) :
    c.AncillaeLast ↔ ∀ q, q < c.numQubits ↔ covers c.qregs q = true := by
  constructor
  · intro last q
    have lower : ∀ p q, p < q →
        q ∈ (Finset.range c.numTotalQubits).filter (fun p => covers c.qregs p = true) →
        p ∈ (Finset.range c.numTotalQubits).filter (fun p => covers c.qregs p = true) := by
      intro p q less member
      obtain ⟨below, covered⟩ := Finset.mem_filter.mp member
      have belowP := less.trans (Finset.mem_range.mp below)
      refine Finset.mem_filter.mpr ⟨Finset.mem_range.mpr belowP, ?_⟩
      refine compact.covers_qregs_iff.mpr ⟨belowP, ?_⟩
      by_contra ancillary
      have above := last q p covered (Bool.eq_true_of_not_eq_false ancillary)
      omega
    rw [← compact.card_covered, ← mem_iff_lt_card lower, Finset.mem_filter, Finset.mem_range]
    exact ⟨And.right, fun covered => ⟨(compact.covers_qregs_iff.mp covered).1, covered⟩⟩
  · intro initial q a covered ancillary
    have below := (initial q).mpr covered
    have outside : ¬ a < c.numQubits := by
      rw [initial a, compact.covers_qregs_iff, ancillary]
      exact fun both => Bool.noConfusion both.2
    omega

/-! ## What is spanned -/

section Spans

variable [Scalar S]

/-- The measurement of a qubit into the bit so many places after it. -/
def measurementAt (start q : Nat) : Operation S :=
  .nonUnitary (.ofMeasure [q] [wrapIndex (start + q)])

/-- Measurements in range are all appended. -/
theorem measureEach_eq_pushAll (c : Circuit S) (start : Nat) {qubits : List Nat}
    (inRange : ∀ q ∈ qubits, q < c.numTotalQubits ∧ start + q < c.numClbits) :
    c.measureEach start qubits = (c.pushAll (qubits.map (measurementAt start))).done () := by
  rw [pushAll_eq_foldl_push]
  induction qubits generalizing c with
  | nil => rfl
  | cons q rest ih =>
      obtain ⟨qubit, bit⟩ := inRange q List.mem_cons_self
      rw [measureEach, measure_of_lt c qubit ((wrapIndex_le_self _).trans_lt bit), List.map_cons,
        List.foldl_cons]
      exact ih _ fun q member => inRange q (List.mem_cons_of_mem _ member)

/-- A circuit that is measured as a whole has room for as many bits as there are qubits to measure
from some bit on, and gets a barrier and a measurement of each index into the bit at its place. -/
theorem measureAll_of_answer {addBits : Bool}
    (measured : (c.measureAll addBits).answer = .ok ()) :
    ∃ start, start + c.numQubits ≤ (c.measureAll addBits).circuit.numClbits ∧
      (c.measureAll addBits).circuit.ops = c.ops ++
        (if c.numQubits = 0 then [] else
          [.standard ⟨.barrier, .empty, List.range c.numQubits, []⟩]) ++
        (List.range c.numQubits).map (measurementAt start) := by
  -- Once there are bits, the barrier and the measurements are appended.
  have appended : ∀ (d : Circuit S) (start : Nat), d.ops = c.ops → d.numQubits = c.numQubits →
      start + c.numQubits ≤ d.numClbits →
      let last := (d.barrier.andThen fun d _ =>
        d.measureEach start (List.range c.numQubits)).circuit
      start + c.numQubits ≤ last.numClbits ∧ last.ops = c.ops ++
        [.standard ⟨.barrier, .empty, List.range c.numQubits, []⟩] ++
        (List.range c.numQubits).map (measurementAt start) := by
    intro d start ops qubits bits
    rw [barrier_eq_push, qubits]
    simp only [Outcome.andThen, done]
    rw [measureEach_eq_pushAll, pushAll, foldl_recordVariables]
    · refine ⟨bits, ?_⟩
      change d.ops ++ [_] ++ _ = _
      rw [ops]
    · intro q member
      have below := List.mem_range.mp member
      constructor
      · change q < d.numQubits + d.numAncillae
        omega
      · change start + q < d.numClbits
        omega
  unfold measureAll at measured ⊢
  dsimp only at measured ⊢
  by_cases none : c.numQubits = 0
  · refine ⟨0, ?_, ?_⟩
    · rw [none]
      exact Nat.zero_le _
    · simp only [none, if_true, done, List.range_zero, List.map_nil, List.append_nil]
  · simp only [none, if_false] at measured ⊢
    cases addBits with
    | true =>
        simp only [if_true] at measured ⊢
        cases answer : (c.addClassicalRegister c.numQubits measRegister).answer with
        | error failure => simp [Outcome.andThen, answer] at measured
        | ok a =>
            have added := addClassicalRegister_of_answer answer none
            refine ⟨c.numClbits, ?_⟩
            simp only [Outcome.andThen, answer, added]
            have start : (((c.insertClbits c.numQubits measRegister).cregs.find?
                measRegister).map (·.start)).getD 0 = c.numClbits := by
              change (((c.cregs.insert measRegister _).find? measRegister).map _).getD 0 = _
              rw [find?_insert, if_pos rfl]
              rfl
            rw [start]
            exact appended (c.insertClbits c.numQubits measRegister) c.numClbits rfl rfl
              (Nat.le_refl _)
    | false =>
        by_cases few : c.numClbits < c.numQubits
        · simp [few, refuse, Outcome.andThen] at measured
        · refine ⟨0, ?_⟩
          simp only [few, Bool.false_eq_true, if_false]
          exact appended c 0 rfl rfl (by omega)

/-- Indices that are all moved by one distance stay different, even where they wrap around. -/
theorem eq_of_wrapIndex_add_eq {start p q : Nat} (smallP : p ≤ maxIndex) (smallQ : q ≤ maxIndex)
    (same : wrapIndex (start + p) = wrapIndex (start + q)) : p = q :=
  Nat.ModEq.eq_of_lt_of_lt (Nat.ModEq.add_left_cancel' start same) (Nat.lt_succ_of_le smallP)
    (Nat.lt_succ_of_le smallQ)

/-- Whether a barrier spans just the qubits of the quantum registers, and a measurement of the whole
circuit that is done measures just these, each once and into different bits that are there. -/
structure Spans (c : Circuit S) : Prop where
  /-- The barrier. -/
  barrier : ∃ qubits : List Nat,
    c.barrier = (c.push (.standard ⟨.barrier, .empty, qubits, []⟩)).done () ∧
      qubits.Nodup ∧ ∀ q, q ∈ qubits ↔ covers c.qregs q = true
  /-- The measurements, after a barrier if there is one. -/
  measureAll : ∀ addBits, (c.measureAll addBits).answer = .ok () →
    ∃ (front : List (Operation S)) (targets : List (Nat × Nat)),
      (c.measureAll addBits).circuit.ops =
        c.ops ++ front ++ targets.map (fun t => .nonUnitary (.ofMeasure [t.1] [t.2])) ∧
      (∀ op ∈ front, op.kind = .barrier) ∧
      (targets.map Prod.fst).Nodup ∧ (∀ q, q ∈ targets.map Prod.fst ↔ covers c.qregs q = true) ∧
      (targets.map Prod.snd).Nodup ∧
      ∀ b ∈ targets.map Prod.snd, b < (c.measureAll addBits).circuit.numClbits

/-- In a compact circuit, barriers and measurements span what they should exactly if the ancillary
qubits come last. -/
theorem Compact.spans_iff (compact : c.Compact) : c.Spans ↔ c.AncillaeLast := by
  rw [compact.ancillaeLast_iff]
  constructor
  · rintro ⟨⟨qubits, pushed, _, spanned⟩, _⟩ q
    have ops := congrArg (fun o : Outcome S Unit => o.circuit.ops)
      (c.barrier_eq_push.symm.trans pushed)
    have same : List.range c.numQubits = qubits := by
      simpa [done, push] using ops
    rw [← spanned, ← same, List.mem_range]
  · intro initial
    refine ⟨⟨List.range c.numQubits, c.barrier_eq_push, List.nodup_range, fun q => ?_⟩,
      fun addBits measured => ?_⟩
    · rw [List.mem_range]
      exact initial q
    · obtain ⟨start, bits, ops⟩ := measureAll_of_answer measured
      let targets : List (Nat × Nat) :=
        (List.range c.numQubits).map fun q => (q, wrapIndex (start + q))
      have firsts : targets.map Prod.fst = List.range c.numQubits := by
        rw [List.map_map]
        exact List.map_id _
      have seconds : targets.map Prod.snd =
          (List.range c.numQubits).map fun q => wrapIndex (start + q) :=
        List.map_map
      have measurements : targets.map (fun t => (.nonUnitary (.ofMeasure [t.1] [t.2]) :
          Operation S)) = (List.range c.numQubits).map (measurementAt start) :=
        List.map_map
      have total : c.numQubits ≤ maxIndex := (Nat.le_add_right _ _).trans compact.total_le
      refine ⟨_, targets, measurements ▸ ops, fun op member => ?_, ?_, fun q => ?_, ?_,
        fun b member => ?_⟩
      · split at member
        · contradiction
        · rw [List.mem_singleton.mp member]
          rfl
      · rw [firsts]
        exact List.nodup_range
      · rw [firsts, List.mem_range]
        exact initial q
      · rw [seconds]
        refine List.nodup_range.map_on fun p memberP q memberQ same => ?_
        exact eq_of_wrapIndex_add_eq ((List.mem_range.mp memberP).le.trans total)
          ((List.mem_range.mp memberQ).le.trans total) same
      · rw [seconds] at member
        obtain ⟨q, below, rfl⟩ := List.mem_map.mp member
        rw [List.mem_range] at below
        exact (wrapIndex_le_self _).trans_lt (by omega)

end Spans

/-! ## Marks -/

theorem ancillary_makeAncilla {l p : Nat} (made : (c.makeAncilla l p).answer = .ok ()) :
    (c.makeAncilla l p).circuit.ancillary = c.ancillary.set l true := by
  have moved : (c.moveToAncillae p).circuit.ancillary = c.ancillary := by
    unfold moveToAncillae
    split
    · rfl
    · split <;> rfl
  unfold makeAncilla Outcome.andThen at made ⊢
  split
  · next a answer =>
      simp only [answer] at made ⊢
      split at made
      · simp [fault] at made
      · next positive =>
          rw [if_neg positive]
          exact congrArg (·.set l true) moved
  · next e answer => simp [answer] at made

/-- Every qubit that is moved is marked, and no other. -/
theorem logicalIsAncillary_makeAncillae {moves : List (Nat × Nat)}
    (made : (c.makeAncillae moves).answer = .ok ())
    (inside : ∀ l ∈ moves.map Prod.fst, l < c.ancillary.length) (k : Nat) :
    (c.makeAncillae moves).circuit.logicalIsAncillary k = true ↔
      c.logicalIsAncillary k = true ∨ k ∈ moves.map Prod.fst := by
  induction moves generalizing c with
  | nil => simp [makeAncillae, done]
  | cons move rest ih =>
      obtain ⟨l, p⟩ := move
      rw [makeAncillae] at made ⊢
      unfold Outcome.andThen at made ⊢
      cases answer : (c.makeAncilla l p).answer with
      | error e => simp [answer] at made
      | ok a =>
          have flags := ancillary_makeAncilla answer
          simp only [answer] at made ⊢
          have length : (c.makeAncilla l p).circuit.ancillary.length = c.ancillary.length := by
            rw [flags, List.length_set]
          have below : l < c.ancillary.length := inside l List.mem_cons_self
          rw [ih made (fun l member => length ▸ inside l (List.mem_cons_of_mem _ member)),
            logicalIsAncillary, flags, List.getD_eq_getElem?_getD, List.getElem?_set,
            List.map_cons, List.mem_cons, logicalIsAncillary, List.getD_eq_getElem?_getD]
          by_cases same : l = k
          · subst same
            simp [below]
          · simp [same, Ne.symm same]

/-- Marking a range marks its qubits, and no other. -/
theorem Compact.logicalIsAncillary_markAncillary (compact : c.Compact) {lo hi : Nat}
    (inRange : c.rangeError? lo hi = none) (k : Nat) :
    (c.markAncillary lo hi).circuit.logicalIsAncillary k = true ↔
      c.logicalIsAncillary k = true ∨ lo ≤ k ∧ k ≤ hi := by
  obtain ⟨_, _, _, _, _, marked, _⟩ := compact.markAncillary inRange
  have answer : (c.markAncillary lo hi).answer = .ok () := by
    rw [marked]
    rfl
  have bounds := ordered_of_rangeError? inRange
  clear marked
  unfold Circuit.markAncillary at answer ⊢
  simp only [inRange] at answer ⊢
  cases located : c.ancillaMoves lo hi with
  | error e => simp [located, refuse] at answer
  | ok moves =>
      have firsts := (physicalOf?_of_mapM located).1
      have member : ∀ l, l ∈ moves.reverse.map Prod.fst ↔
          (lo ≤ l ∧ l ≤ hi) ∧ c.logicalIsAncillary l = false := by
        intro l
        rw [List.map_reverse, List.mem_reverse, firsts, List.mem_filter, List.mem_range'_1,
          Bool.not_eq_true']
        refine and_congr_left fun _ => ?_
        omega
      simp only [located] at answer ⊢
      rw [logicalIsAncillary_makeAncillae answer fun l moved => ?_, member]
      · cases c.logicalIsAncillary k <;> simp
      · have below := ((member l).mp moved).1.2
        omega

/-- Ancillary qubits come last if those that are marked so do. -/
theorem Compact.ancillaeLast_iff_marks (compact : c.Compact) :
    c.AncillaeLast ↔ ∀ p q l m, c.initialLayout.find? p = some l →
      c.initialLayout.find? q = some m → c.logicalIsAncillary l = false →
      c.logicalIsAncillary m = true → p < q := by
  constructor
  · intro last p q l m held held' unmarked marked
    rw [compact.marks held] at unmarked
    rw [compact.marks held'] at marked
    exact last p q (compact.covers_qregs_iff.mpr ⟨compact.layout.lt held, unmarked⟩) marked
  · intro last p q covered ancillary
    obtain ⟨below, other⟩ := compact.covers_qregs_iff.mp covered
    obtain ⟨l, held⟩ := compact.layout.exists_value below
    obtain ⟨m, held'⟩ := compact.layout.exists_value (compact.covers_ancregs_lt ancillary)
    exact last p q l m held held' ((compact.marks held).trans other)
      ((compact.marks held').trans ancillary)

end Circuit

/-- Whether a mark takes the highest of the qubits that are not ancillary yet. -/
def Step.MarksLast (c : Circuit S) : Step S → Prop
  | .markAncillary lo hi => c.rangeError? lo hi = none →
      ∀ p q l m, c.initialLayout.find? p = some l → c.initialLayout.find? q = some m →
        c.logicalIsAncillary l = false → c.logicalIsAncillary m = false →
        ¬ (lo ≤ l ∧ l ≤ hi) → lo ≤ m ∧ m ≤ hi → p < q
  | _ => True

namespace Circuit

variable {c d : Circuit S}

/-- A mark keeps the ancillary qubits last exactly if it takes the highest ones. -/
theorem AncillaeLast.markAncillary_iff (last : c.AncillaeLast) (compact : c.Compact)
    (lo hi : Nat) : (c.markAncillary lo hi).circuit.AncillaeLast ↔
      (Step.markAncillary lo hi).MarksLast c := by
  cases inRange : c.rangeError? lo hi with
  | some e =>
      rw [markAncillary, inRange]
      refine iff_of_true last fun none => ?_
      rw [inRange] at none
      contradiction
  | none =>
      have marks := compact.logicalIsAncillary_markAncillary inRange
      obtain ⟨_, _, _, _, _, marked, nextCompact⟩ := compact.markAncillary inRange
      rw [marked] at marks ⊢
      have unmarked := fun k => Bool.not_eq_true _ ▸ not_congr (marks k)
      refine nextCompact.ancillaeLast_iff_marks.trans ?_
      have before := compact.ancillaeLast_iff_marks.mp last
      constructor
      · intro after _ p q l m held held' unmarkedL unmarkedM outside inside
        refine after p q l m held held' ((unmarked l).mpr ?_) ((marks m).mpr (.inr inside))
        rintro (ancillary | range)
        · rw [unmarkedL] at ancillary
          contradiction
        · exact outside range
      · intro highest p q l m held held' unmarkedL markedM
        obtain ⟨other, outside⟩ := not_or.mp ((unmarked l).mp unmarkedL)
        have otherL := Bool.eq_false_of_not_eq_true other
        cases old : c.logicalIsAncillary m with
        | true => exact before p q l m held held' otherL old
        | false =>
            have inside := ((marks m).mp markedM).resolve_left (by rw [old]; exact Bool.noConfusion)
            exact highest inRange p q l m held held' otherL old outside inside

/-! ## Other steps -/

theorem Compact.covers_ancregs_of_none (compact : c.Compact) (none : c.numAncillae = 0) (p : Nat) :
    covers c.ancregs p = false := by
  have sizes := totalSize_eq_sum compact.fit_ancregs (fun i => (compact.coverCount_le i).2)
    fun _ above => (compact.uncovered above).2
  rw [compact.totalSize_ancregs, none] at sizes
  rw [covers_eq_false_iff]
  rcases Nat.lt_or_ge p c.numTotalQubits with below | above
  · exact Finset.sum_eq_zero_iff.mp sizes.symm p (Finset.mem_range.mpr below)
  · exact (compact.uncovered above).2

/-- New ancillary qubits are the last ones. -/
theorem AncillaeLast.extends (last : c.AncillaeLast) (compact : c.Compact) {n : Nat}
    (extension : c.Extends d n true) : d.AncillaeLast := by
  intro q a covered ancillary
  rw [covers_iff, extension.qregs] at covered
  rw [covers_iff, extension.ancregs] at ancillary
  simp only [and_false, reduceCtorEq, if_false, Nat.add_zero, and_true] at covered ancillary
  have inside := covers_iff.mpr covered
  by_cases old : coverCount c.ancregs a = 0
  · have below := (compact.covers_qregs_iff.mp inside).1
    split at ancillary <;> omega
  · exact last q a inside (covers_iff.mpr old)

/-- Closing up behind idle qubits keeps the order of the others. -/
theorem AncillaeLast.stripIdle (last : c.AncillaeLast) (compact : c.Compact) (force : Bool) :
    (c.stripIdle force true).circuit.AncillaeLast := by
  obtain ⟨next, stripped, nextCompact, renumbered⟩ := compact.stripIdle_staged force
  rw [stripped]
  change next.AncillaeLast
  intro q a covered ancillary
  have below := (nextCompact.covers_qregs_iff.mp covered).1
  have belowA := nextCompact.covers_ancregs_lt ancillary
  rw [renumbered.total] at below belowA
  obtain ⟨p, _, left, rfl⟩ := exists_count_eq below
  obtain ⟨b, _, leftB, rfl⟩ := exists_count_eq belowA
  rw [covers_iff, renumbered.qregs left] at covered
  rw [covers_iff, renumbered.ancregs leftB] at ancillary
  exact Nat.count_strict_mono left (last p b (covers_iff.mpr covered) (covers_iff.mpr ancillary))

/-- Among the steps that leave no gaps, but the last index without a qubit, only marks can put an
ancillary qubit before another. -/
theorem AncillaeLast.run_iff (last : c.AncillaeLast) (compact : c.Compact) {s : Step S}
    (roomy : s.Roomy c) : (s.run c).AncillaeLast ↔ s.MarksLast c := by
  obtain ⟨gapless, small⟩ := roomy
  cases s with
  | addQubitRegister n name =>
      refine iff_of_true ?_ trivial
      rw [Step.run, addQubitRegister]
      split_ifs with some
      · exact last
      · exact last
      · exact last
      · have none := compact.covers_ancregs_of_none (Nat.eq_zero_of_not_pos some)
        intro q a _ ancillary
        exact absurd ancillary (Bool.eq_false_iff.mp (none a))
      · exact last
  | addClassicalRegister n name =>
      refine iff_of_true ?_ trivial
      rw [Step.run, addClassicalRegister]
      split_ifs <;> exact last
  | addAncillaryRegister n name =>
      refine iff_of_true ?_ trivial
      rw [Step.run] at small ⊢
      rcases addAncillaryRegister_cases c n name with
        ⟨_, failed⟩ | ⟨_, added⟩ | ⟨unblocked, added⟩
      · rw [failed]
        exact last
      · rw [added]
        exact last
      · rw [added] at small ⊢
        have total : (c.insertAncillae n name).numTotalQubits = c.numTotalQubits + n :=
          (Nat.add_assoc _ _ _).symm
        exact last.extends compact (compact.insertAncillae_extends unblocked (total ▸ small))
  | addQubit logical physical output => contradiction
  | addAncillaryQubit physical output =>
      obtain rfl : physical = c.numTotalQubits := gapless
      refine iff_of_true ?_ trivial
      rw [Step.run] at small ⊢
      rcases addAncillaryQubit_cases c c.numTotalQubits output with
        ⟨_, failed⟩ | ⟨_, _, added⟩
      · rw [failed]
        exact last
      · rw [added] at small ⊢
        have free : c.numTotalQubits < maxIndex := small
        intro q a covered ancillary
        rw [covers_iff] at ancillary
        change coverCount (add c.ancregs c.numTotalQubits c.ancregName) a ≠ 0 at ancillary
        rw [coverCount_add compact.fit_ancregs free] at ancillary
        by_cases old : coverCount c.ancregs a = 0
        · have below := (compact.covers_qregs_iff.mp covered).1
          split at ancillary <;> omega
        · exact last q a covered (covers_iff.mpr old)
  | removeQubit logical => contradiction
  | markAncillary lo hi => exact last.markAncillary_iff compact lo hi
  | markGarbage lo hi =>
      refine iff_of_true ?_ trivial
      rw [Step.run, markGarbage]
      split
      · exact last
      · split <;> exact last
  | unifyRegisters name => contradiction
  | stripIdle force closing =>
      obtain rfl : closing = true := gapless
      exact iff_of_true (last.stripIdle compact force) trivial
  | program ops variableNames globalPhase => exact iff_of_true last trivial

/-! ## Runs -/

variable [Scalar S]

/-- New circuits have no ancillary qubits. -/
theorem ancillaeLast_of_ofConfig? {config : Config} (built : ofConfig? config = some c) :
    c.AncillaeLast := by
  have compact := Compact.of_ofConfig? built
  have none : c.numAncillae = 0 := by
    rcases ofConfig?_cases built with ⟨bare, rfl | ⟨_, rfl⟩, rfl | rfl⟩ <;> rfl
  intro q a _ ancillary
  exact absurd ancillary (Bool.eq_false_iff.mp (compact.covers_ancregs_of_none none a))

/-- In a compact circuit, barriers and measurements of the whole circuit span just the qubits that
are not ancillary exactly if the ancillary ones come last.  In a run of steps from a new circuit
that leave no gaps, but the last index without a qubit, this is so at every point exactly if every
mark takes the highest qubits that are not ancillary yet. -/
theorem spans_throughout_iff {config : Config} (built : ofConfig? config = some c)
    {steps : List (Step S)}
    (roomy : ∀ prior s, prior ++ [s] <+: steps → s.Roomy (Step.runAll c prior)) :
    (∀ d : Circuit S, d.Compact → (d.Spans ↔ d.AncillaeLast)) ∧
    ((∀ prior, prior <+: steps → (Step.runAll c prior).Spans) ↔
      ∀ prior s, prior ++ [s] <+: steps → s.MarksLast (Step.runAll c prior)) := by
  refine ⟨fun d compact => compact.spans_iff, ?_⟩
  have initially : c.Compact ∧ c.AncillaeLast :=
    ⟨Compact.of_ofConfig? built, ancillaeLast_of_ofConfig? built⟩
  have keeps : ∀ (d : Circuit S) (s : Step S), d.Compact →
      (((s.run d).Compact ∧ s.Roomy d) ↔ s.Roomy d) :=
    fun d s compact => ⟨And.right, fun roomy => ⟨compact.run roomy, roomy⟩⟩
  have compacts := ((throughout_iff initially.1 keeps steps).mpr roomy).1
  have step_iff : ∀ (d : Circuit S) (s : Step S), d.Compact ∧ d.AncillaeLast →
      ((((s.run d).Compact ∧ (s.run d).AncillaeLast) ∧ s.Roomy d) ↔
        s.Roomy d ∧ s.MarksLast d) := by
    rintro d s ⟨compact, last⟩
    constructor
    · rintro ⟨⟨_, after⟩, roomy⟩
      exact ⟨roomy, (last.run_iff compact roomy).mp after⟩
    · rintro ⟨roomy, highest⟩
      exact ⟨⟨compact.run roomy, (last.run_iff compact roomy).mpr highest⟩, roomy⟩
  have all := throughout_iff initially step_iff steps
  constructor
  · intro points prior s isPrefix
    have holds : ∀ prior, prior <+: steps →
        (Step.runAll c prior).Compact ∧ (Step.runAll c prior).AncillaeLast :=
      fun prior isPrefix => ⟨compacts prior isPrefix,
        (compacts prior isPrefix).spans_iff.mp (points prior isPrefix)⟩
    exact (all.mp ⟨holds, roomy⟩ prior s isPrefix).2
  · intro highest prior isPrefix
    have sound := all.mpr fun prior s isPrefix =>
      ⟨roomy prior s isPrefix, highest prior s isPrefix⟩
    exact (compacts prior isPrefix).spans_iff.mpr (sound.1 prior isPrefix).2

/-- The last of three qubits is marked, and the idle one in the middle is stripped. -/
theorem spans_throughout_marked :
    let c : Circuit Float := (blank Config.default).insertQubits 3 "q"
    let steps : List (Step Float) := [.markAncillary 2 2,
      .program [.nonUnitary (.ofReset [0, 2])] .empty Scalar.zero, .stripIdle true true]
    (Step.runAll c steps).qregs.entries = [("q", ⟨0, 1⟩)] ∧
      (Step.runAll c steps).ancregs.entries = [("anc", ⟨1, 1⟩)] ∧
      ∀ prior, prior <+: steps → (Step.runAll c prior).Spans := by
  intro c steps
  have built : ofConfig? { Config.default with numQubits := 3 } = some c := rfl
  have own : ∀ {p l}, c.initialLayout.find? p = some l → p = l ∧ l < 3 := by
    intro p l held
    change (extendLayout .empty 0 3).find? p = some l at held
    rw [find?_extendLayout] at held
    split at held
    · next inside => exact ⟨Option.some.inj held, Option.some.inj held ▸ inside.2⟩
    · contradiction
  have roomy : ∀ prior s, prior ++ [s] <+: steps → s.Roomy (Step.runAll c prior) :=
    forall_steps_cons_iff.mpr ⟨⟨trivial, by decide +kernel⟩,
      forall_steps_cons_iff.mpr ⟨⟨trivial, by decide +kernel⟩,
        forall_steps_cons_iff.mpr ⟨⟨rfl, by decide +kernel⟩, forall_steps_nil⟩⟩⟩
  refine ⟨by decide +kernel, by decide +kernel, (spans_throughout_iff built roomy).2.mpr ?_⟩
  refine forall_steps_cons_iff.mpr ⟨fun _ p q l m held held' _ _ outside inside => ?_,
    forall_steps_cons_iff.mpr ⟨trivial, forall_steps_cons_iff.mpr ⟨trivial, forall_steps_nil⟩⟩⟩
  have first := own held
  have second := own held'
  omega

/-- The first of three qubits is marked.  A barrier spans it, and leaves out the last one. -/
theorem not_spans_marked :
    let c := Step.run ((blank Config.default : Circuit Float).insertQubits 3 "q")
      (.markAncillary 0 0)
    Reachable Step.Roomy c ∧ c.qregs.entries = [("q", ⟨1, 2⟩)] ∧
      c.ancregs.entries = [("anc", ⟨0, 1⟩)] ∧
      c.barrier.circuit.ops.map Operation.targets = [[0, 1]] ∧ ¬ c.Spans := by
  intro c
  have built : ofConfig? { Config.default with numQubits := 3 } =
      some ((blank Config.default : Circuit Float).insertQubits 3 "q") := rfl
  have reached : Reachable Step.Roomy c :=
    (Reachable.start built).step ⟨trivial, by decide +kernel⟩
  refine ⟨reached, by decide +kernel, by decide +kernel, by decide +kernel, ?_⟩
  rw [reached.compact.spans_iff]
  intro last
  exact absurd (last 1 0 (by decide +kernel) (by decide +kernel)) (by decide)

end Circuit

end QuantumCircuit
