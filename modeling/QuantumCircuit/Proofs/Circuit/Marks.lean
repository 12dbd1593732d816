import QuantumCircuit.Proofs.Circuit.Holders
import QuantumCircuit.Proofs.Circuit.Strip

/-!
# Marks and the qubits they belong to

Whether a logical qubit is ancillary or garbage is looked up at its index in a list.  When a qubit
is removed its place is taken out of the list, and when one is added a place is put in, so the marks
behind it move, while the layout lets the logical qubits keep their indices.  So these have the
marks of their neighbours then.  Stripping without closing up does this once for each qubit it
removes: which ones these are is settled before the first removal, and their places are taken out in
the order of the physical qubits.
-/

namespace QuantumCircuit

open Registers SortedMap

namespace Circuit

variable {S : Type} {c d : Circuit S}

/-- Whether a logical qubit is ancillary, and whether it is garbage. -/
def marks (c : Circuit S) (l : Nat) : Bool × Bool :=
  (c.logicalIsAncillary l, c.logicalIsGarbage l)

/-- Whether a logical qubit is in the initial layout. -/
def Holds (c : Circuit S) (l : Nat) : Prop :=
  ∃ p, c.initialLayout.find? p = some l

/-- Whether the logical qubits that are in the layout before and after, apart from some, have the
marks that they had. -/
def KeepsMarks (c d : Circuit S) (changed : List Nat) : Prop :=
  ∀ k, k ∉ changed → c.Holds k → d.Holds k → d.marks k = c.marks k

/-! ## Removals -/

/-- A removal that is done forgets the first holder of the logical qubit. -/
theorem removeQubit_of_answer {l : Nat} {a : Nat × Option Nat}
    (done : (c.removeQubit l).answer = .ok a) :
    ∃ p qregs ancregs numQubits numAncillae, c.physicalOf? l = some p ∧
      (c.removeQubit l).circuit = { c with
        qregs, ancregs, numQubits, numAncillae
        initialLayout := c.initialLayout.erase p
        outputPermutation := c.outputPermutation.erase p
        ancillary := c.ancillary.eraseIdx l
        garbage := c.garbage.eraseIdx l } := by
  rcases removeQubit_outcome c l with ⟨_, _, _, failed⟩ |
    ⟨p, qregs, ancregs, numQubits, numAncillae, found, _, removed⟩
  · rw [failed] at done
    contradiction
  · exact ⟨p, qregs, ancregs, numQubits, numAncillae, found, by rw [removed]; rfl⟩

theorem getD_eraseIdx (flags : List Bool) (l k : Nat) :
    (flags.eraseIdx l).getD k false = flags.getD (openGap l k) false := by
  rw [List.getD_eq_getElem?_getD, List.getD_eq_getElem?_getD, getElem?_eraseIdx_openGap]

/-- After a removal each index has the marks of the place that moved there. -/
theorem marks_of_eraseIdx {l : Nat} (ancillary : d.ancillary = c.ancillary.eraseIdx l)
    (garbage : d.garbage = c.garbage.eraseIdx l) (k : Nat) :
    d.marks k = c.marks (openGap l k) := by
  rw [marks, marks, logicalIsAncillary, logicalIsGarbage, ancillary, garbage, getD_eraseIdx,
    getD_eraseIdx]
  rfl

/-- A removal keeps the marks exactly if each later qubit has those of the next index. -/
theorem keepsMarks_removeQubit_iff {l : Nat} {a : Nat × Option Nat}
    (done : (c.removeQubit l).answer = .ok a) :
    c.KeepsMarks (c.removeQubit l).circuit [l] ↔
      ∀ k, l < k → c.Holds k → c.marks (k + 1) = c.marks k := by
  obtain ⟨p, qregs, ancregs, numQubits, numAncillae, found, removed⟩ := removeQubit_of_answer done
  have moved : ∀ k, (c.removeQubit l).circuit.marks k = c.marks (openGap l k) := by
    rw [removed]
    exact marks_of_eraseIdx rfl rfl
  have stays : ∀ {k}, k ≠ l → c.Holds k → (c.removeQubit l).circuit.Holds k := by
    rintro k other ⟨q, held⟩
    have apart : q ≠ p := by
      rintro rfl
      exact other (Option.some.inj (held.symm.trans (find?_of_physicalOf? found)))
    refine ⟨q, ?_⟩
    rw [removed]
    exact (find?_erase ..).trans ((if_neg apart).trans held)
  simp only [KeepsMarks, List.mem_singleton, moved, openGap]
  constructor
  · intro kept k above held
    have same := kept k (Nat.ne_of_gt above) held (stays (Nat.ne_of_gt above) held)
    rwa [if_neg (Nat.not_lt.mpr above.le)] at same
  · intro later k other held _
    split
    · rfl
    · next notBelow => exact later k (by omega) held

/-! ## Additions -/

theorem getD_insertIdx (flags : List Bool) {l k : Nat} (other : k ≠ l) :
    (flags.insertIdx l false).getD k false = flags.getD (closeGap l k) false := by
  rw [List.getD_eq_getElem?_getD, List.getD_eq_getElem?_getD, List.getElem?_insertIdx, if_neg other,
    closeGap]
  split_ifs
  · omega
  · rfl
  · rfl
  · omega

/-- An addition keeps the marks exactly if each later qubit has those of the index before. -/
theorem keepsMarks_addQubit_iff {l p : Nat} {output : Option Nat}
    (done : (c.addQubit l p output).answer = .ok ()) :
    c.KeepsMarks (c.addQubit l p output).circuit [l] ↔
      ∀ k, l < k → c.Holds k → c.marks (k - 1) = c.marks k := by
  rcases addQubit_cases c l p output with ⟨_, failed⟩ | ⟨free, _, _, added⟩
  · rw [failed] at done
    contradiction
  · have moved : ∀ {k}, k ≠ l →
        (c.addQubit l p output).circuit.marks k = c.marks (closeGap l k) := by
      intro k other
      rw [added]
      exact Prod.ext (getD_insertIdx c.ancillary other) (getD_insertIdx c.garbage other)
    have stays : ∀ {k}, c.Holds k → (c.addQubit l p output).circuit.Holds k := by
      rintro k ⟨q, held⟩
      have apart : q ≠ p := by
        rintro rfl
        rw [contains_eq_false_iff.mp free] at held
        contradiction
      refine ⟨q, ?_⟩
      rw [added]
      exact (find?_insert ..).trans ((if_neg apart).trans held)
    simp only [KeepsMarks, List.mem_singleton]
    constructor
    · intro kept k above held
      have same := kept k (Nat.ne_of_gt above) held (stays held)
      rwa [moved (Nat.ne_of_gt above), closeGap, if_pos above] at same
    · intro later k other held _
      rw [moved other, closeGap]
      split
      · next above => exact later k above held
      · rfl

/-! ## Stripping -/

/-- Among some physical qubits, the logical qubits of those that stripping does not keep. -/
def stripped (c : Circuit S) (force : Bool) (candidates : List Nat) : List Nat :=
  candidates.filterMap fun p => if c.Kept force p then none else c.initialLayout.find? p

/-- The place from which the marks of an index come if places are taken out in some order. -/
def source (removed : List Nat) (k : Nat) : Nat :=
  removed.foldr openGap k

theorem source_of_lt {removed : List Nat} {k : Nat} (below : ∀ r ∈ removed, k < r) :
    source removed k = k := by
  induction removed with
  | nil => rfl
  | cons r rest ih =>
      obtain ⟨first, later⟩ := List.forall_mem_cons.mp below
      rw [source, List.foldr_cons, ← source, ih later, openGap, if_pos first]

/-- Taking out a qubit that is not kept does not change which other qubits are: if an output needed
it, it would be kept. -/
theorem kept_of_erase_iff (injective : c.initialLayout.Injective) {force : Bool} {p l : Nat}
    (held : c.initialLayout.find? p = some l) (idle : ¬ c.Kept force p) (ops : d.ops = c.ops)
    (layout : d.initialLayout = c.initialLayout.erase p)
    (output : d.outputPermutation = c.outputPermutation.erase p) {q : Nat} (other : q ≠ p) :
    d.Kept force q ↔ c.Kept force q := by
  rw [Kept, Kept, ops, layout, output, find?_erase, find?_erase, if_neg other, if_neg other]
  refine or_congr_right (and_congr_right fun unforced => exists_congr fun k =>
    and_congr_right fun heldQ => or_congr_right (exists_congr fun r => and_congr_right fun _ => ?_))
  rw [find?_erase]
  split
  · next same =>
      refine iff_of_false (Option.some_ne_none k).symm fun needed =>
        idle (.inr ⟨unforced, l, held, .inl ⟨k, ?_, ?_⟩⟩)
      · rw [← same]
        exact needed
      · rintro rfl
        exact other (injective heldQ held)
  · rfl

/-- Removing a qubit that is not kept takes its entry out of the layout and its place out of the
marks, and the other qubits are kept as before. -/
theorem removeQubit_of_not_kept (injective : c.initialLayout.Injective) {force : Bool} {p l : Nat}
    (held : c.initialLayout.find? p = some l) (idle : ¬ c.Kept force p) {a : Nat × Option Nat}
    (done : (c.removeQubit l).answer = .ok a) :
    (c.removeQubit l).circuit.initialLayout = c.initialLayout.erase p ∧
      (∀ q, q ≠ p → ((c.removeQubit l).circuit.Kept force q ↔ c.Kept force q)) ∧
      ∀ k, (c.removeQubit l).circuit.marks k = c.marks (openGap l k) := by
  obtain ⟨q, qregs, ancregs, numQubits, numAncillae, found, removed⟩ := removeQubit_of_answer done
  obtain rfl := injective (find?_of_physicalOf? found) held
  refine ⟨by rw [removed], fun _ other => kept_of_erase_iff injective held idle ?_ ?_ ?_ other,
    marks_of_eraseIdx ?_ ?_⟩ <;> rw [removed]

/-- Candidates that are not in the layout, or that are kept, are passed over. -/
theorem stripFrom_cons_of_kept {force closing : Bool} {p : Nat}
    (kept : ∀ l, c.initialLayout.find? p = some l → c.Kept force p) (rest : List Nat) :
    stripFrom force closing c (p :: rest) = stripFrom force closing c rest := by
  rw [stripFrom]
  split
  · rfl
  · next l held => rw [if_pos ((kept_iff held).mp (kept l held))]

theorem stripFrom_cons_of_not_kept {force closing : Bool} {p l : Nat}
    (held : c.initialLayout.find? p = some l) (idle : ¬ c.Kept force p) (rest : List Nat) :
    stripFrom force closing c (p :: rest) = (c.removeQubit l).andThen fun d _ =>
      stripFrom force closing (if closing then d.closeUp l p else d) rest := by
  rw [stripFrom]
  simp only [held]
  rw [if_neg fun keeps => idle ((kept_iff held).mpr keeps)]

theorem stripped_cons_of_kept {force : Bool} {p : Nat}
    (kept : ∀ l, c.initialLayout.find? p = some l → c.Kept force p) (rest : List Nat) :
    c.stripped force (p :: rest) = c.stripped force rest := by
  apply List.filterMap_cons_none
  split
  · rfl
  · next idle =>
      rw [Option.eq_none_iff_forall_not_mem]
      exact fun l held => idle (kept l held)

theorem stripped_cons_of_not_kept {force : Bool} {p l : Nat}
    (held : c.initialLayout.find? p = some l) (idle : ¬ c.Kept force p) (rest : List Nat) :
    c.stripped force (p :: rest) = l :: c.stripped force rest :=
  List.filterMap_cons_some (by rw [if_neg idle, held])

/-- Stripping without closing up removes the candidates that are not kept, one after the other. -/
theorem marks_stripFrom (injective : c.initialLayout.Injective) {force : Bool}
    {candidates : List Nat} (distinct : candidates.Nodup)
    (done : (stripFrom force false c candidates).answer = .ok ()) :
    (∀ k, (stripFrom force false c candidates).circuit.marks k =
      c.marks (source (c.stripped force candidates) k)) ∧
    ∀ q k, (stripFrom force false c candidates).circuit.initialLayout.find? q = some k ↔
      c.initialLayout.find? q = some k ∧ (q ∈ candidates → c.Kept force q) := by
  induction candidates generalizing c with
  | nil => exact ⟨fun _ => rfl, fun q k => by simp [stripFrom, Circuit.done]⟩
  | cons p rest ih =>
      obtain ⟨notLater, distinctRest⟩ := List.nodup_cons.mp distinct
      by_cases kept : ∀ l, c.initialLayout.find? p = some l → c.Kept force p
      · rw [stripFrom_cons_of_kept kept] at done ⊢
        obtain ⟨moved, left⟩ := ih injective distinctRest done
        refine ⟨fun k => by rw [moved, stripped_cons_of_kept kept], fun q k => (left q k).trans ?_⟩
        refine and_congr_right fun held => ⟨fun keeps member => ?_, fun keeps member => ?_⟩
        · rcases List.mem_cons.mp member with rfl | member
          · exact kept k held
          · exact keeps member
        · exact keeps (List.mem_cons_of_mem p member)
      · obtain ⟨l, idleIfHeld⟩ := not_forall.mp kept
        obtain ⟨held, idle⟩ := Classical.not_imp.mp idleIfHeld
        rw [stripFrom_cons_of_not_kept held idle] at done ⊢
        unfold Outcome.andThen at done ⊢
        cases answer : (c.removeQubit l).answer with
        | error failure =>
            rw [answer] at done
            contradiction
        | ok a =>
            simp only [answer, Bool.false_eq_true, if_false] at done ⊢
            obtain ⟨layout, same, shifted⟩ := removeQubit_of_not_kept injective held idle answer
            have later : (c.removeQubit l).circuit.stripped force rest =
                c.stripped force rest := by
              refine List.filterMap_congr fun q member => ?_
              have apart : q ≠ p := fun equal => notLater (equal ▸ member)
              rw [layout, find?_erase, if_neg apart]
              exact if_congr (same q apart) rfl rfl
            obtain ⟨moved, left⟩ := ih (injective_removeQubit injective l) distinctRest done
            refine ⟨fun k => ?_, fun q k => (left q k).trans ?_⟩
            · rw [moved, later, shifted, stripped_cons_of_not_kept held idle]
              rfl
            · rw [layout, find?_erase]
              by_cases apart : q = p
              · simp [apart, idle]
              · rw [if_neg apart, same q apart, List.mem_cons, or_iff_right apart]

/-- Stripping without closing up keeps the marks exactly if each qubit that is kept, and is not
below all that are removed, has those of the place that moves to its index. -/
theorem keepsMarks_stripIdle_iff (injective : c.initialLayout.Injective) {force : Bool}
    (done : (c.stripIdle force false).answer = .ok ()) :
    c.KeepsMarks (c.stripIdle force false).circuit
        (c.stripped force c.initialLayout.keys.reverse) ↔
      ∀ k, c.KeptLogical force k → (∃ r ∈ c.stripped force c.initialLayout.keys.reverse, r ≤ k) →
        c.marks (source (c.stripped force c.initialLayout.keys.reverse) k) = c.marks k := by
  obtain ⟨moved, left⟩ := marks_stripFrom injective
    (List.nodup_reverse.mpr (nodup_keys c.initialLayout)) done
  have holds_iff : ∀ k, (c.stripIdle force false).circuit.Holds k ↔ c.KeptLogical force k := by
    intro k
    refine exists_congr fun q => (left q k).trans ?_
    rw [and_comm]
    refine and_congr_left fun held => imp_iff_right ?_
    rw [List.mem_reverse, mem_keys_iff]
    exact contains_iff_find?.mpr ⟨k, held⟩
  have remains : ∀ {k}, c.KeptLogical force k →
      k ∉ c.stripped force c.initialLayout.keys.reverse := by
    rintro k ⟨p, kept, held⟩ member
    obtain ⟨q, -, gone⟩ := List.mem_filterMap.mp member
    split at gone
    · contradiction
    · next idle => exact idle (injective gone held ▸ kept)
  have moved' : ∀ k, (c.stripIdle force false).circuit.marks k =
      c.marks (source (c.stripped force c.initialLayout.keys.reverse) k) := moved
  simp only [KeepsMarks, holds_iff, moved']
  constructor
  · rintro kept k ⟨p, keptP, held⟩ _
    exact kept k (remains ⟨p, keptP, held⟩) ⟨p, held⟩ ⟨p, keptP, held⟩
  · intro shifted k _ _ kept
    by_cases below : ∃ r ∈ c.stripped force c.initialLayout.keys.reverse, r ≤ k
    · exact shifted k kept below
    · have all : ∀ r ∈ c.stripped force c.initialLayout.keys.reverse, k < r :=
        fun r member => Nat.lt_of_not_le fun le => below ⟨r, member, le⟩
      rw [source_of_lt all]

/-! ## When marks are kept -/

/-- A removal, an addition or a stripping without closing up lets the other qubits keep their marks
exactly if those that move to the index of a later qubit are the same as its own. -/
theorem keepsMarks_iff (injective : c.initialLayout.Injective) :
    (∀ l a, (c.removeQubit l).answer = .ok a →
      (c.KeepsMarks (c.removeQubit l).circuit [l] ↔
        ∀ k, l < k → c.Holds k → c.marks (k + 1) = c.marks k)) ∧
    (∀ l p output, (c.addQubit l p output).answer = .ok () →
      (c.KeepsMarks (c.addQubit l p output).circuit [l] ↔
        ∀ k, l < k → c.Holds k → c.marks (k - 1) = c.marks k)) ∧
    ∀ force, (c.stripIdle force false).answer = .ok () →
      let removed := c.stripped force c.initialLayout.keys.reverse
      c.KeepsMarks (c.stripIdle force false).circuit removed ↔
        ∀ k, c.KeptLogical force k → (∃ r ∈ removed, r ≤ k) →
          c.marks (source removed k) = c.marks k :=
  ⟨fun _ _ => keepsMarks_removeQubit_iff, fun _ _ _ => keepsMarks_addQubit_iff,
    fun _ => keepsMarks_stripIdle_iff injective⟩

/-- The middle one of three qubits is garbage.  The last one is removed, or one is added behind it,
or idle qubits are stripped from the end. -/
theorem keepsMarks_at_end :
    let c := Step.run ((blank Config.default : Circuit Float).insertQubits 3 "q") (.markGarbage 1 1)
    let used := Step.run c (.program [.nonUnitary (.ofMeasure [0, 1] [0, 1])] .empty Scalar.zero)
    c.garbage = [false, true, false] ∧ c.KeepsMarks (c.removeQubit 2).circuit [2] ∧
      c.KeepsMarks (c.addQubit 3 3 none).circuit [3] ∧
      (used.stripIdle false false).circuit.initialLayout.entries = [(0, 0), (1, 1)] ∧
      used.KeepsMarks (used.stripIdle false false).circuit [2] := by
  intro c used
  have built : ofConfig? { Config.default with numQubits := 3 } =
      some ((blank Config.default : Circuit Float).insertQubits 3 "q") := rfl
  have injective : c.initialLayout.Injective :=
    (injective_run_iff (injective_of_ofConfig? built) (.markGarbage 1 1)).mpr trivial
  have heldLe : ∀ k, c.Holds k → k ≤ 2 := by
    rintro k ⟨p, held⟩
    have all : ∀ e ∈ c.initialLayout.entries, e.2 ≤ 2 := by decide +kernel
    exact all (p, k) (mem_entries_of_find? held)
  refine ⟨by decide +kernel, ?_, ?_, by decide +kernel, ?_⟩
  · refine ((keepsMarks_iff injective).1 2 (2, some 2) (by decide +kernel)).mpr
      fun k above held => ?_
    exact absurd (heldLe k held) (Nat.not_le.mpr above)
  · refine ((keepsMarks_iff injective).2.1 3 3 none (by decide +kernel)).mpr
      fun k above held => ?_
    exact absurd (Nat.lt_succ_of_le (heldLe k held)) (Nat.lt_asymm above)
  · have kept := (keepsMarks_iff (c := used) injective).2.2 false (by decide +kernel)
    have gone : used.stripped false used.initialLayout.keys.reverse = [2] := by decide +kernel
    dsimp only at kept
    rw [gone] at kept
    refine kept.mpr fun k keptK above => ?_
    obtain ⟨p, -, held⟩ := id keptK
    have atMost := heldLe k ⟨p, held⟩
    obtain rfl : k = 2 := Nat.le_antisymm atMost (by simpa using above)
    exact absurd keptK (by decide +kernel)

/-- The last one of three qubits is garbage.  When the first one is removed, the middle one becomes
garbage in its place. -/
theorem not_keepsMarks_shifted :
    let c := Step.run ((blank Config.default : Circuit Float).insertQubits 3 "q") (.markGarbage 2 2)
    let removed := (c.removeQubit 0).circuit
    removed.initialLayout.entries = [(1, 1), (2, 2)] ∧
      c.marks 1 = (false, false) ∧ removed.marks 1 = (false, true) ∧
      c.marks 2 = (false, true) ∧ removed.marks 2 = (false, false) ∧
      ¬ c.KeepsMarks removed [0] := by
  intro c removed
  have before : c.marks 1 = (false, false) := by decide +kernel
  have after : removed.marks 1 = (false, true) := by decide +kernel
  refine ⟨by decide +kernel, before, after, by decide +kernel, by decide +kernel, fun keeps => ?_⟩
  have same := keeps 1 (by decide) ⟨1, by decide +kernel⟩ ⟨1, by decide +kernel⟩
  rw [before, after] at same
  contradiction

end Circuit

end QuantumCircuit
