import QuantumCircuit.Proofs.Circuit.Addition
import QuantumCircuit.Proofs.Circuit.Layout

/-!
# Circuits without gaps

A circuit is compact if its indices have no gaps: the initial layout is a bijection of the indices
below the number of qubits, registers tile these indices, there is a mark for each of them, and
marks and ancillary registers agree.  Each step that adds qubits at the end, or marks qubits, keeps
a circuit compact, and in a compact circuit no such step breaks off halfway.  Only the last index
there is must not be used up, because the end of a register that reaches it wraps around.
-/

namespace QuantumCircuit

open Registers SortedMap

namespace Circuit

variable {S : Type}

/-- The bookkeeping of a circuit in which no index is left out. -/
structure Compact (c : Circuit S) : Prop where
  /-- Physical and logical indices are those below the number of qubits, matched one to one. -/
  layout : Layout.Bijective c.initialLayout c.numTotalQubits
  /-- Only physical qubits have an output. -/
  output_lt : ∀ {p}, c.outputPermutation.contains p = true → p < c.numTotalQubits
  /-- Each logical qubit has a mark that says whether it is ancillary. -/
  length_ancillary : c.ancillary.length = c.numTotalQubits
  /-- Each logical qubit has a mark that says whether it is garbage. -/
  length_garbage : c.garbage.length = c.numTotalQubits
  /-- Quantum and ancillary registers together cover every physical qubit once, and nothing else. -/
  tiles : ∀ i, coverCount c.qregs i + coverCount c.ancregs i =
    if i < c.numTotalQubits then 1 else 0
  /-- The quantum registers hold the qubits that are not ancillary. -/
  totalSize_qregs : totalSize c.qregs = c.numQubits
  /-- The ancillary registers hold the ancillary qubits. -/
  totalSize_ancregs : totalSize c.ancregs = c.numAncillae
  /-- The ends of the quantum registers do not wrap around. -/
  fit_qregs : c.qregs.Fit
  /-- The ends of the ancillary registers do not wrap around. -/
  fit_ancregs : c.ancregs.Fit
  /-- A logical qubit is marked ancillary if its physical qubit lies in an ancillary register. -/
  marks : ∀ {p l}, c.initialLayout.find? p = some l →
    c.logicalIsAncillary l = c.physicalIsAncillary p

/-- The classical registers cover every classical bit once, and nothing else. -/
def ClbitsTiled (c : Circuit S) : Prop :=
  ∀ i, coverCount c.cregs i = if i < c.numClbits then 1 else 0

/-! ## Marks -/

@[simp]
theorem length_resize {α : Type} (l : List α) (n : Nat) (fill : α) :
    (resize l n fill).length = n := by
  rw [resize, List.length_append, List.length_take, List.length_replicate]
  omega

/-- Filling a list up to a length keeps its items. -/
theorem getD_resize {α : Type} {l : List α} {n : Nat} (grows : l.length ≤ n) (fill default : α)
    (i : Nat) :
    (resize l n fill).getD i default =
      if i < l.length then l.getD i default else if i < n then fill else default := by
  rw [resize, List.take_of_length_le grows, List.getD_eq_getElem?_getD, List.getElem?_append]
  split
  · rw [List.getD_eq_getElem?_getD]
  · next outside =>
      rw [List.getElem?_replicate]
      by_cases below : i < n
      · have filled : i - l.length < n - l.length := by omega
        rw [if_pos below, if_pos filled, Option.getD_some]
      · have beyond : ¬ (i - l.length < n - l.length) := by omega
        rw [if_neg below, if_neg beyond, Option.getD_none]

/-! ## Facts about compact circuits -/

theorem compact_blank [Scalar S] (config : Config) : (blank config : Circuit S).Compact where
  layout := Layout.bijective_empty
  output_lt held := by simp [blank] at held
  length_ancillary := rfl
  length_garbage := rfl
  tiles i := by simp [blank, numTotalQubits]
  totalSize_qregs := rfl
  totalSize_ancregs := rfl
  fit_qregs := all_empty
  fit_ancregs := all_empty
  marks held := by simp [blank] at held

variable {c : Circuit S}

/-- No qubit is covered twice. -/
theorem Compact.coverCount_le (compact : c.Compact) (p : Nat) :
    coverCount c.qregs p ≤ 1 ∧ coverCount c.ancregs p ≤ 1 := by
  have once := compact.tiles p
  split at once <;> omega

/-- Nothing is covered beyond the last qubit. -/
theorem Compact.uncovered (compact : c.Compact) {p : Nat} (above : c.numTotalQubits ≤ p) :
    coverCount c.qregs p = 0 ∧ coverCount c.ancregs p = 0 := by
  have none := compact.tiles p
  rw [if_neg (Nat.not_lt.mpr above)] at none
  omega

/-- The qubits leave the last index free. -/
theorem Compact.total_le (compact : c.Compact) : c.numTotalQubits ≤ maxIndex := by
  by_contra more
  have covered := compact.tiles maxIndex
  rw [if_pos (Nat.lt_of_not_le more), coverCount_of_le le_rfl, coverCount_of_le le_rfl] at covered
  exact absurd covered Nat.zero_ne_one

/-- A circuit with another program is compact as well. -/
theorem Compact.withProgram (compact : c.Compact) (ops : List (Operation S))
    (variableNames : SortedSet String) (globalPhase : S) :
    ({ c with ops, variableNames, globalPhase } : Circuit S).Compact :=
  ⟨compact.layout, compact.output_lt, compact.length_ancillary, compact.length_garbage,
    compact.tiles, compact.totalSize_qregs, compact.totalSize_ancregs, compact.fit_qregs,
    compact.fit_ancregs, compact.marks⟩

/-- A circuit with other classical bits is compact as well. -/
theorem Compact.withClbits (compact : c.Compact) (cregs : Registers) (numClbits : Nat) :
    ({ c with cregs, numClbits } : Circuit S).Compact :=
  ⟨compact.layout, compact.output_lt, compact.length_ancillary, compact.length_garbage,
    compact.tiles, compact.totalSize_qregs, compact.totalSize_ancregs, compact.fit_qregs,
    compact.fit_ancregs, compact.marks⟩

/-! ## New qubits -/

/-- A circuit with `n` more qubits at the end, all of them ancillary or none. -/
structure Extends (c next : Circuit S) (n : Nat) (ancillary : Bool) : Prop where
  /-- The new qubits are counted. -/
  total : next.numTotalQubits = c.numTotalQubits + n
  /-- They hold the logical qubits of their own indices. -/
  layout : next.initialLayout = extendLayout c.initialLayout c.numTotalQubits n
  /-- They may have an output. -/
  output_lt : ∀ {p}, next.outputPermutation.contains p = true →
    p < c.numTotalQubits + n ∨ c.outputPermutation.contains p = true
  /-- They are marked as they are. -/
  marked : next.ancillary = resize c.ancillary (c.numTotalQubits + n) ancillary
  /-- There is a mark for garbage for each of them. -/
  length_garbage : next.garbage.length = c.numTotalQubits + n
  /-- They are covered by quantum registers if they are not ancillary. -/
  qregs : ∀ i, coverCount next.qregs i = coverCount c.qregs i +
    if (c.numTotalQubits ≤ i ∧ i < c.numTotalQubits + n) ∧ ancillary = false then 1 else 0
  /-- They are covered by ancillary registers if they are ancillary. -/
  ancregs : ∀ i, coverCount next.ancregs i = coverCount c.ancregs i +
    if (c.numTotalQubits ≤ i ∧ i < c.numTotalQubits + n) ∧ ancillary = true then 1 else 0
  /-- The sizes of the quantum registers are counted. -/
  totalSize_qregs : totalSize c.qregs = c.numQubits → totalSize next.qregs = next.numQubits
  /-- The sizes of the ancillary registers are counted. -/
  totalSize_ancregs : totalSize c.ancregs = c.numAncillae →
    totalSize next.ancregs = next.numAncillae
  /-- The ends of the quantum registers do not wrap around. -/
  fit_qregs : next.qregs.Fit
  /-- The ends of the ancillary registers do not wrap around. -/
  fit_ancregs : next.ancregs.Fit

/-- More qubits at the end keep a circuit compact. -/
theorem Compact.extends {next : Circuit S} {n : Nat} {ancillary : Bool} (compact : c.Compact)
    (extension : c.Extends next n ancillary) : next.Compact := by
  refine ⟨?_, fun {p} held => ?_, ?_, ?_, fun i => ?_,
    extension.totalSize_qregs compact.totalSize_qregs,
    extension.totalSize_ancregs compact.totalSize_ancregs, extension.fit_qregs,
    extension.fit_ancregs, fun {p l} held => ?_⟩
  · rw [extension.total, extension.layout]
    exact Layout.Bijective.extend compact.layout n
  · rw [extension.total]
    rcases extension.output_lt held with new | old
    · exact new
    · exact Nat.lt_add_right n (compact.output_lt old)
  · rw [extension.total, extension.marked, length_resize]
  · rw [extension.total, extension.length_garbage]
  · have before := compact.tiles i
    rw [extension.total, extension.qregs, extension.ancregs]
    cases ancillary <;> simp only [and_true, and_false, reduceCtorEq, if_false] <;>
      split_ifs at before ⊢ <;> omega
  · rw [logicalIsAncillary, physicalIsAncillary, extension.marked,
      getD_resize (by rw [compact.length_ancillary]; omega), compact.length_ancillary]
    rw [extension.layout, find?_extendLayout] at held
    split at held
    · next new =>
        obtain rfl := Option.some.inj held
        have none := (compact.uncovered new.1).2
        rw [if_neg (Nat.not_lt.mpr new.1), if_pos new.2, Bool.eq_iff_iff, covers_iff,
          extension.ancregs, none]
        simp [new]
    · next old =>
        rw [if_pos (compact.layout.value_lt held)]
        have same := compact.marks held
        rw [logicalIsAncillary, physicalIsAncillary] at same
        rw [same, Bool.eq_iff_iff, covers_iff, covers_iff, extension.ancregs,
          if_neg fun new => old new.1, Nat.add_zero]

/-- New indices at the end are counted in the total size. -/
theorem totalSize_grown {regs : Registers} {name : String} {start n counted : Nat}
    (unblocked : blocked regs name start = false) (sizes : totalSize regs = counted)
    (small : counted + n ≤ maxIndex) :
    totalSize (growRegister regs name start n) = counted + n := by
  rw [totalSize_growRegister n unblocked, sizes, wrapIndex_of_le small]

theorem Compact.insertQubits_extends (compact : c.Compact) {n : Nat} {name : String}
    (unblocked : blocked c.qregs name c.numTotalQubits = false)
    (small : c.numTotalQubits + n ≤ maxIndex) : c.Extends (c.insertQubits n name) n false where
  total := Nat.add_right_comm _ _ _
  layout := rfl
  output_lt held := ((contains_extendLayout _ _ _ _).mp held).imp_left And.right
  marked := rfl
  length_garbage := length_resize _ _ _
  qregs i := by
    simp only [and_true]
    exact coverCount_growRegister compact.fit_qregs small unblocked i
  ancregs i := by simp [Circuit.insertQubits]
  totalSize_qregs sizes := totalSize_grown unblocked sizes (by rw [numTotalQubits] at small; omega)
  totalSize_ancregs sizes := sizes
  fit_qregs := All.growRegister lasting_fits compact.fit_qregs small unblocked
  fit_ancregs := compact.fit_ancregs

theorem Compact.insertAncillae_extends (compact : c.Compact) {n : Nat} {name : String}
    (unblocked : blocked c.ancregs name c.numTotalQubits = false)
    (small : c.numTotalQubits + n ≤ maxIndex) : c.Extends (c.insertAncillae n name) n true where
  total := (Nat.add_assoc _ _ _).symm
  layout := rfl
  output_lt held := ((contains_extendLayout _ _ _ _).mp held).imp_left And.right
  marked := rfl
  length_garbage := length_resize _ _ _
  qregs i := by simp [Circuit.insertAncillae]
  ancregs i := by
    simp only [and_true]
    exact coverCount_growRegister compact.fit_ancregs small unblocked i
  totalSize_qregs sizes := sizes
  totalSize_ancregs sizes :=
    totalSize_grown unblocked sizes (by rw [numTotalQubits] at small; omega)
  fit_qregs := compact.fit_qregs
  fit_ancregs := All.growRegister lasting_fits compact.fit_ancregs small unblocked

/-- Filling a list by one item is appending it. -/
theorem resize_length_succ {α : Type} (l : List α) (fill item : α) :
    resize l l.length fill ++ [item] = resize l (l.length + 1) item := by
  have short : l.length + 1 - l.length = 1 := by omega
  rw [resize, resize, List.take_length, List.take_of_length_le (Nat.le_succ _), Nat.sub_self, short,
    List.replicate_zero, List.append_nil, List.replicate_one]

/-- One more ancillary qubit at the end keeps a circuit compact, unless it takes the last index. -/
theorem Compact.addAncillaryQubit (compact : c.Compact) (output : Option Nat)
    (small : (c.addAncillaryQubit c.numTotalQubits output).circuit.numTotalQubits ≤ maxIndex) :
    (c.addAncillaryQubit c.numTotalQubits output).circuit.Compact := by
  rcases addAncillaryQubit_cases c c.numTotalQubits output with ⟨_, failed⟩ | ⟨_, _, added⟩
  · rw [failed]
    exact compact
  · rw [added] at small ⊢
    have last : c.numTotalQubits < maxIndex := small
    apply Compact.extends compact (?_ : c.Extends _ 1 true)
    refine ⟨(Nat.add_assoc _ _ _).symm, rfl, fun {p} held => ?_, ?_, ?_, fun i => ?_, fun i => ?_,
      id, fun sizes => ?_, compact.fit_qregs,
      compact.fit_ancregs.add lasting_fits (Register.fits_single last) c.ancregName⟩
    · cases output with
      | none => exact .inr held
      | some o =>
          rcases contains_insert.mp held with rfl | old
          · exact .inl (Nat.lt_succ_self _)
          · exact .inr old
    · rw [← compact.length_ancillary]
      exact resize_length_succ _ _ _
    · rw [done, List.length_append, length_resize]
      rfl
    · simp
      rfl
    · change coverCount (add c.ancregs c.numTotalQubits c.ancregName) i = _
      simp only [coverCount_add compact.fit_ancregs last, and_true]
      split_ifs <;> omega
    · change totalSize (add c.ancregs c.numTotalQubits c.ancregName) = c.numAncillae + 1
      rw [numTotalQubits] at last
      rw [totalSize_add, sizes, wrapIndex_of_le (by omega)]

/-! ## Marking qubits -/

theorem ordered_of_rangeError? {lo hi : Nat} (inRange : c.rangeError? lo hi = none) :
    lo ≤ hi ∧ hi < c.ancillary.length := by
  unfold rangeError? at inRange
  split at inRange
  · contradiction
  · split at inRange
    · contradiction
    · omega

/-- Marking garbage keeps a circuit compact. -/
theorem Compact.markGarbage (compact : c.Compact) (lo hi : Nat) :
    (c.markGarbage lo hi).circuit.Compact := by
  unfold Circuit.markGarbage
  split
  · exact compact
  · next inRange =>
      split
      · exact compact
      · next below =>
          have ordered := (ordered_of_rangeError? inRange).1
          refine ⟨compact.layout, compact.output_lt, compact.length_ancillary, ?_, compact.tiles,
            compact.totalSize_qregs, compact.totalSize_ancregs, compact.fit_qregs,
            compact.fit_ancregs, compact.marks⟩
          have length := compact.length_garbage
          change (c.garbage.take lo ++ List.replicate (hi + 1 - lo) true
            ++ c.garbage.drop (hi + 1)).length = c.numTotalQubits
          rw [List.length_append, List.length_append, List.length_take, List.length_replicate,
            List.length_drop]
          omega

/-- Moving a held qubit from the quantum to the ancillary registers and marking it keeps a circuit
compact. -/
theorem Compact.moved (compact : c.Compact) {p l : Nat}
    (held : c.initialLayout.find? p = some l) {qregs ancregs : Registers}
    (coverQ : ∀ i, coverCount qregs i + (if i = p then 1 else 0) = coverCount c.qregs i)
    (coverA : ∀ i, coverCount ancregs i = coverCount c.ancregs i + if i = p then 1 else 0)
    (sizeQ : totalSize qregs + 1 = c.numQubits) (sizeA : totalSize ancregs = c.numAncillae + 1)
    (fitQ : qregs.Fit) (fitA : ancregs.Fit) :
    ({ c with
      qregs, ancregs
      ancillary := c.ancillary.set l true
      numQubits := c.numQubits - 1
      numAncillae := c.numAncillae + 1 } : Circuit S).Compact := by
  have total : c.numQubits - 1 + (c.numAncillae + 1) = c.numTotalQubits := by
    rw [numTotalQubits]
    omega
  refine ⟨?_, ?_, ?_, ?_, fun i => ?_, ?_, sizeA, fitQ, fitA, fun {p' l'} held' => ?_⟩
  · change Layout.Bijective c.initialLayout _
    rw [numTotalQubits, total]
    exact compact.layout
  · rw [numTotalQubits, total]
    exact compact.output_lt
  · rw [numTotalQubits, total, List.length_set]
    exact compact.length_ancillary
  · rw [numTotalQubits, total]
    exact compact.length_garbage
  · have before := compact.tiles i
    rw [← coverQ] at before
    rw [numTotalQubits, total]
    simp only [coverA]
    omega
  · change totalSize qregs = c.numQubits - 1
    omega
  · have markable : l < c.ancillary.length := by
      rw [compact.length_ancillary]
      exact compact.layout.value_lt held
    change (c.ancillary.set l true).getD l' false = covers ancregs p'
    change c.initialLayout.find? p' = some l' at held'
    rw [List.getD_eq_getElem?_getD, List.getElem?_set]
    by_cases same : l = l'
    · subst same
      obtain rfl := compact.layout.injective held held'
      rw [if_pos rfl, if_pos markable, Option.getD_some, eq_comm, covers_iff, coverA, if_pos rfl]
      exact Nat.succ_ne_zero _
    · have other : p' ≠ p := by
        rintro rfl
        rw [held] at held'
        exact same (Option.some.inj held')
      have agree := compact.marks held'
      rw [logicalIsAncillary, physicalIsAncillary, List.getD_eq_getElem?_getD] at agree
      rw [if_neg same, agree, Bool.eq_iff_iff, covers_iff, covers_iff, coverA, if_neg other,
        Nat.add_zero]

/-- In a compact circuit a qubit that is not ancillary can be made so, which keeps the circuit
compact and changes nothing but registers, counts and the mark. -/
theorem Compact.makeAncilla (compact : c.Compact) {p l : Nat}
    (held : c.initialLayout.find? p = some l) (unmarked : c.logicalIsAncillary l = false) :
    ∃ qregs ancregs,
      let next : Circuit S := { c with
        qregs, ancregs
        ancillary := c.ancillary.set l true
        numQubits := c.numQubits - 1
        numAncillae := c.numAncillae + 1 }
      c.makeAncilla l p = next.done () ∧ next.Compact := by
  have uncovered : coverCount c.ancregs p = 0 := by
    rw [← covers_eq_false_iff, ← unmarked]
    exact (compact.marks held).symm
  have inside : coverCount c.qregs p ≠ 0 := by
    have once := compact.tiles p
    rw [if_pos (compact.layout.lt held)] at once
    omega
  rcases exists_takeOut inside with ⟨name, offset, qregs, located, removed⟩
  have sizeQ : totalSize qregs + 1 = c.numQubits :=
    (totalSize_remove_of_once compact.fit_qregs (fun j => (compact.coverCount_le j).1) removed).trans
      compact.totalSize_qregs
  have positive : c.numQubits ≠ 0 := by omega
  have bound := compact.total_le
  have small : p < maxIndex := Nat.lt_of_lt_of_le (compact.layout.lt held) bound
  refine ⟨qregs, add c.ancregs p c.ancregName, ?_, ?_⟩
  · unfold Circuit.makeAncilla moveToAncillae
    simp only [located, removed, Outcome.andThen, done, positive, if_false]
  · apply compact.moved held (coverCount_remove removed)
      (coverCount_add compact.fit_ancregs small c.ancregName) sizeQ _
      (compact.fit_qregs.remove lasting_fits removed)
      (compact.fit_ancregs.add lasting_fits (Register.fits_single small) _)
    rw [numTotalQubits] at bound
    rw [totalSize_add, compact.totalSize_ancregs, wrapIndex_of_le (by omega)]

/-- Making several qubits ancillary, one after the other. -/
theorem Compact.makeAncillae (compact : c.Compact) {moves : List (Nat × Nat)}
    (distinct : (moves.map Prod.fst).Nodup)
    (held : ∀ {l p}, (l, p) ∈ moves → c.initialLayout.find? p = some l)
    (unmarked : ∀ {l p}, (l, p) ∈ moves → c.logicalIsAncillary l = false) :
    ∃ qregs ancregs ancillary numQubits numAncillae,
      let next : Circuit S := { c with qregs, ancregs, ancillary, numQubits, numAncillae }
      c.makeAncillae moves = next.done () ∧ next.Compact := by
  induction moves generalizing c with
  | nil => exact ⟨_, _, _, _, _, rfl, compact⟩
  | cons move rest ih =>
      rcases move with ⟨l, p⟩
      rcases List.nodup_cons.mp distinct with ⟨notMem, distinctRest⟩
      obtain ⟨qregs, ancregs, made, nextCompact⟩ :=
        compact.makeAncilla (held List.mem_cons_self) (unmarked List.mem_cons_self)
      obtain ⟨qregs', ancregs', ancillary', numQubits', numAncillae', madeRest, lastCompact⟩ :=
        ih nextCompact distinctRest (fun mem => held (List.mem_cons_of_mem _ mem)) (by
          intro l' p' mem
          have other : l ≠ l' := by
            rintro rfl
            exact notMem (List.mem_map.mpr ⟨(l, p'), mem, rfl⟩)
          have before := unmarked (List.mem_cons_of_mem _ mem)
          rw [logicalIsAncillary, List.getD_eq_getElem?_getD] at before
          rw [logicalIsAncillary, List.getD_eq_getElem?_getD, List.getElem?_set, if_neg other]
          exact before)
      refine ⟨qregs', ancregs', ancillary', numQubits', numAncillae', ?_, lastCompact⟩
      rw [Circuit.makeAncillae, made]
      exact madeRest

/-- A step that succeeds on every item of a list succeeds on the list. -/
theorem mapM_eq_ok {ε α β : Type} {f : α → Except ε β} {g : α → β} {l : List α}
    (succeeds : ∀ a ∈ l, f a = .ok (g a)) : l.mapM f = .ok (l.map g) := by
  induction l with
  | nil => rfl
  | cons head rest ih =>
      rw [List.mapM_cons, succeeds head List.mem_cons_self,
        ih fun a mem => succeeds a (List.mem_cons_of_mem _ mem)]
      rfl

/-- In a compact circuit marking a range that is there succeeds, keeps the circuit compact, and
changes nothing but registers, counts and marks. -/
theorem Compact.markAncillary (compact : c.Compact) {lo hi : Nat}
    (inRange : c.rangeError? lo hi = none) :
    ∃ qregs ancregs ancillary numQubits numAncillae,
      let next : Circuit S := { c with qregs, ancregs, ancillary, numQubits, numAncillae }
      c.markAncillary lo hi = next.done () ∧ next.Compact := by
  have below : hi < c.numTotalQubits := by
    rw [← compact.length_ancillary]
    exact (ordered_of_rangeError? inRange).2
  let candidates := (List.range' lo (hi + 1 - lo)).filter fun l => !c.logicalIsAncillary l
  let move (l : Nat) : Nat × Nat := (l, (c.physicalOf? l).getD 0)
  have located : ∀ l ∈ candidates, ∃ p,
      c.physicalOf? l = some p ∧ c.initialLayout.find? p = some l := by
    intro l mem
    have bounds := List.mem_range'_1.mp (List.mem_filter.mp mem).1
    rcases compact.layout.surjective (l := l) (by omega) with ⟨p, heldAt⟩
    exact ⟨p, physicalOf?_eq_some compact.layout heldAt, heldAt⟩
  have moves : c.ancillaMoves lo hi = .ok (candidates.map move) := by
    apply mapM_eq_ok
    intro l mem
    rcases located l mem with ⟨p, found, _⟩
    simp only [physicalOf, found, move]
    rfl
  have unmarked : ∀ l ∈ candidates, c.logicalIsAncillary l = false := by
    intro l mem
    simpa using (List.mem_filter.mp mem).2
  have distinct : ((candidates.map move).reverse.map Prod.fst).Nodup := by
    rw [List.map_reverse, List.nodup_reverse, List.map_map]
    change (candidates.map id).Nodup
    rw [List.map_id]
    exact (List.nodup_range' 1).filter _
  unfold Circuit.markAncillary
  simp only [inRange, moves]
  refine compact.makeAncillae distinct (fun {l p} mem => ?_) (fun {l p} mem => ?_)
  · rcases List.mem_map.mp (List.mem_reverse.mp mem) with ⟨l', candidate, equal⟩
    rcases Prod.mk.inj equal with ⟨rfl, rfl⟩
    rcases located l' candidate with ⟨p, found, heldAt⟩
    rw [found, Option.getD_some]
    exact heldAt
  · rcases List.mem_map.mp (List.mem_reverse.mp mem) with ⟨l', candidate, equal⟩
    rcases Prod.mk.inj equal with ⟨rfl, rfl⟩
    exact unmarked l' candidate

end Circuit

end QuantumCircuit
