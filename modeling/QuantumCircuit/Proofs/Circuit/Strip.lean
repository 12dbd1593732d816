import Mathlib.Data.List.Sort
import QuantumCircuit.Proofs.Circuit.Renumbering

/-!
# Stripping idle qubits

Stripping with closing up decides for each physical qubit, from the highest one down, whether to
keep it, while the indices shift under it.  The decisions are those that the circuit gives rise to
before the first removal, so the outcome has a closed form: the kept qubits stay, each index is
replaced by its rank among the kept ones, and nothing else changes.
-/

namespace QuantumCircuit

open Registers SortedMap

namespace Circuit

variable {S : Type}

/-! ## Kept qubits -/

/-- Stripping keeps a physical qubit if an operation touches it, or, unless it is forced, if the
output permutation moves it or puts its logical qubit on another. -/
def Kept (c : Circuit S) (force : Bool) (p : Nat) : Prop :=
  Operation.anyActsOn p c.ops = true ∨
    force = false ∧ ∃ l, c.initialLayout.find? p = some l ∧
      ((∃ o, c.outputPermutation.find? p = some o ∧ o ≠ l) ∨
        ∃ q, q ≠ p ∧ c.outputPermutation.find? q = some l)

/-- The logical qubits that kept physical qubits hold. -/
def KeptLogical (c : Circuit S) (force : Bool) (l : Nat) : Prop :=
  ∃ p, c.Kept force p ∧ c.initialLayout.find? p = some l

theorem neededForOutput_iff {c : Circuit S} {l p : Nat} :
    c.neededForOutput l p = true ↔ (∃ o, c.outputPermutation.find? p = some o ∧ o ≠ l) ∨
      ∃ q, q ≠ p ∧ c.outputPermutation.find? q = some l := by
  rw [neededForOutput, Bool.or_eq_true, List.any_eq_true]
  refine or_congr ?_ ?_
  · cases c.outputPermutation.find? p with
    | none => simp
    | some o => simp
  · constructor
    · rintro ⟨⟨q, o⟩, stored, other⟩
      rw [Bool.and_eq_true, bne_iff_ne, beq_iff_eq] at other
      rcases other with ⟨otherQ, rfl⟩
      exact ⟨q, otherQ, find?_of_mem_entries stored⟩
    · rintro ⟨q, other, held⟩
      refine ⟨(q, l), mem_entries_of_find? held, ?_⟩
      rw [Bool.and_eq_true, bne_iff_ne, beq_iff_eq]
      exact ⟨other, rfl⟩

/-- Being kept, as stripping decides it. -/
theorem kept_iff {c : Circuit S} {force : Bool} {p l : Nat}
    (held : c.initialLayout.find? p = some l) :
    c.Kept force p ↔ (!c.isIdle p || (!force && c.neededForOutput l p)) = true := by
  rw [Bool.or_eq_true, Bool.and_eq_true, isIdle, Bool.not_not, Bool.not_eq_true',
    neededForOutput_iff, Kept]
  simp only [held, Option.some.injEq, exists_eq_left']

instance (c : Circuit S) (force : Bool) : DecidablePred (c.Kept force) := fun p =>
  match held : c.initialLayout.find? p with
  | some _ => decidable_of_iff _ (kept_iff held).symm
  | none => decidable_of_iff (Operation.anyActsOn p c.ops = true) (by simp [Kept, held])

instance (c : Circuit S) (force : Bool) : DecidablePred (c.KeptLogical force) := fun l =>
  decidable_of_iff (∃ e ∈ c.initialLayout.entries, c.Kept force e.1 ∧ e.2 = l) <| by
    constructor
    · rintro ⟨⟨p, l⟩, stored, kept, rfl⟩
      exact ⟨p, kept, find?_of_mem_entries stored⟩
    · rintro ⟨p, kept, held⟩
      exact ⟨(p, l), mem_entries_of_find? held, kept, rfl⟩

/-! ## Stages -/

variable {c stage : Circuit S} {force : Bool}

/-- The physical qubit that holds a logical one; the index itself if there is none. -/
def holder (c : Circuit S) (l : Nat) : Nat :=
  (c.physicalOf? l).getD l

theorem holder_of_held (compact : c.Compact) {p l : Nat}
    (held : c.initialLayout.find? p = some l) : c.holder l = p := by
  rw [holder, physicalOf?_eq_some compact.layout held, Option.getD_some]

theorem holder_of_le (compact : c.Compact) {l : Nat} (above : c.numTotalQubits ≤ l) :
    c.holder l = l := by
  rw [holder]
  cases found : c.physicalOf? l with
  | none => rfl
  | some p =>
      have below := compact.layout.value_lt (find?_of_physicalOf? found)
      exact absurd below (Nat.not_lt.mpr above)

theorem holder_eq_iff (compact : c.Compact) {p l m : Nat}
    (held : c.initialLayout.find? p = some l) : c.holder m = p ↔ m = l := by
  constructor
  · intro equal
    rcases Nat.lt_or_ge m c.numTotalQubits with below | above
    · rcases compact.layout.surjective below with ⟨q, heldQ⟩
      rw [holder_of_held compact heldQ] at equal
      rw [equal, held] at heldQ
      exact (Option.some.inj heldQ).symm
    · rw [holder_of_le compact above] at equal
      have below := compact.layout.lt held
      omega
  · rintro rfl
    exact holder_of_held compact held

/-- The physical indices that are left when all qubits from `n` on have been dealt with. -/
def Staged (c : Circuit S) (force : Bool) (n p : Nat) : Prop :=
  p < n ∨ c.Kept force p ∨ c.numTotalQubits ≤ p

instance (c : Circuit S) (force : Bool) (n : Nat) : DecidablePred (c.Staged force n) := fun _ =>
  inferInstanceAs (Decidable (_ ∨ _ ∨ _))

/-- The logical indices that are left then. -/
def StagedLogical (c : Circuit S) (force : Bool) (n l : Nat) : Prop :=
  c.Staged force n (c.holder l)

instance (c : Circuit S) (force : Bool) (n : Nat) : DecidablePred (c.StagedLogical force n) :=
  fun l => inferInstanceAs (Decidable (c.Staged force n (c.holder l)))

theorem stagedLogical_of_held (compact : c.Compact) {n p l : Nat}
    (held : c.initialLayout.find? p = some l) :
    c.StagedLogical force n l ↔ c.Staged force n p := by
  rw [StagedLogical, holder_of_held compact held]

theorem staged_succ_of_kept {n : Nat} (kept : c.Kept force n) (p : Nat) :
    c.Staged force (n + 1) p ↔ c.Staged force n p := by
  constructor
  · rintro (less | old)
    · rcases Nat.lt_succ_iff_lt_or_eq.mp less with below | rfl
      · exact .inl below
      · exact .inr (.inl kept)
    · exact .inr old
  · rintro (less | old)
    · exact .inl (Nat.lt_succ_of_lt less)
    · exact .inr old

theorem staged_succ_of_not_kept {n : Nat} (below : n < c.numTotalQubits)
    (idle : ¬ c.Kept force n) (p : Nat) :
    (c.Staged force (n + 1) p ∧ p ≠ n) ↔ c.Staged force n p := by
  constructor
  · rintro ⟨less | old, other⟩
    · exact .inl (Nat.lt_of_le_of_ne (Nat.lt_succ_iff.mp less) other)
    · exact .inr old
  · rintro (less | kept | above)
    · exact ⟨.inl (Nat.lt_succ_of_lt less), Nat.ne_of_lt less⟩
    · refine ⟨.inr (.inl kept), ?_⟩
      rintro rfl
      exact idle kept
    · exact ⟨.inr (.inr above), by omega⟩

/-- The qubit that is dealt with next still has its index. -/
theorem count_staged_succ (n : Nat) : Nat.count (c.Staged force (n + 1)) n = n :=
  Nat.count_of_forall fun _ less => .inl (Nat.lt_succ_of_lt less)

/-- Unless stripping is forced, the output of a qubit that is left is left as well. -/
theorem stagedLogical_of_output (compact : c.Compact) {n p o : Nat}
    (left : c.Staged false n p) (output : c.outputPermutation.find? p = some o) :
    c.StagedLogical false n o := by
  rcases Nat.lt_or_ge o c.numTotalQubits with below | above
  · rcases compact.layout.surjective below with ⟨q, held⟩
    rw [stagedLogical_of_held compact held]
    by_cases same : p = q
    · rw [← same]
      exact left
    · exact .inr (.inl (.inr ⟨rfl, o, held, .inr ⟨p, same, output⟩⟩))
  · rw [StagedLogical, holder_of_le compact above]
    exact .inr (.inr above)

/-- Unless stripping is forced, a qubit is left as long as its output is another qubit that is. -/
theorem staged_of_output (compact : c.Compact) {n p q l : Nat} (left : c.Staged false n p)
    (held : c.initialLayout.find? p = some l) (output : c.outputPermutation.find? q = some l) :
    c.Staged false n q := by
  by_cases same : q = p
  · rw [same]
    exact left
  · have below := compact.output_lt (contains_iff_find?.mpr ⟨l, output⟩)
    rcases compact.layout.exists_value below with ⟨m, heldQ⟩
    have other : l ≠ m := by
      rintro rfl
      exact same (compact.layout.injective heldQ held)
    exact .inr (.inl (.inr ⟨rfl, m, heldQ, .inl ⟨l, output, other⟩⟩))

/-- What the output permutation needs is not disturbed by earlier removals. -/
theorem neededForOutput_staged (compact : c.Compact) (stageCompact : stage.Compact) {n l : Nat}
    (renumbered : c.Renumbered stage (c.Staged false (n + 1)) (c.StagedLogical false (n + 1)))
    (held : c.initialLayout.find? n = some l) :
    stage.neededForOutput (Nat.count (c.StagedLogical false (n + 1)) l) n = true ↔
      c.neededForOutput l n = true := by
  have left : c.Staged false (n + 1) n := .inl (Nat.lt_succ_self n)
  have leftLogical : c.StagedLogical false (n + 1) l :=
    (stagedLogical_of_held compact held).mpr left
  have own := renumbered.output left
  rw [count_staged_succ] at own
  rw [neededForOutput_iff, neededForOutput_iff, own]
  refine or_congr ?_ ?_
  · constructor
    · rintro ⟨_, output, other⟩
      rcases Option.map_eq_some_iff.mp output with ⟨o, stored, rfl⟩
      exact ⟨o, stored, fun same => other (congrArg _ same)⟩
    · rintro ⟨o, output, other⟩
      rw [output]
      refine ⟨_, rfl, fun same => other ?_⟩
      exact Nat.count_injective (stagedLogical_of_output compact left output) leftLogical same
  · constructor
    · rintro ⟨r, other, output⟩
      have below := stageCompact.output_lt (contains_iff_find?.mpr ⟨_, output⟩)
      rw [renumbered.total] at below
      rcases exists_count_eq below with ⟨q, _, leftQ, rfl⟩
      rw [renumbered.output leftQ] at output
      rcases Option.map_eq_some_iff.mp output with ⟨o, stored, same⟩
      obtain rfl := Nat.count_injective (stagedLogical_of_output compact leftQ stored) leftLogical
        same
      refine ⟨q, ?_, stored⟩
      rintro rfl
      exact other (count_staged_succ q)
    · rintro ⟨q, other, output⟩
      have leftQ := staged_of_output compact left held output
      refine ⟨Nat.count (c.Staged false (n + 1)) q, fun same => other ?_, ?_⟩
      · exact Nat.count_injective leftQ left (same.trans (count_staged_succ n).symm)
      · rw [renumbered.output leftQ, output, Option.map_some]

/-- At every stage stripping decides as the circuit before the first removal says. -/
theorem kept_staged (compact : c.Compact) (stageCompact : stage.Compact) {n l : Nat}
    (renumbered : c.Renumbered stage (c.Staged force (n + 1)) (c.StagedLogical force (n + 1)))
    (held : c.initialLayout.find? n = some l) :
    (!stage.isIdle n || (!force && stage.neededForOutput
      (Nat.count (c.StagedLogical force (n + 1)) l) n)) = true ↔
      c.Kept force n := by
  have left : c.Staged force (n + 1) n := .inl (Nat.lt_succ_self n)
  have acts := renumbered.anyActsOn_iff (fun touched => .inr (.inl (.inl touched))) left
  rw [count_staged_succ] at acts
  rw [kept_iff held, Bool.or_eq_true, Bool.or_eq_true, isIdle, isIdle, Bool.not_not, Bool.not_not]
  apply or_congr acts
  cases force with
  | true => simp
  | false =>
      rw [Bool.not_false, Bool.true_and, Bool.true_and]
      exact neededForOutput_staged compact stageCompact renumbered held

/-! ## The loop -/

/-- Dealing with the qubits below `n`, from the highest one down. -/
theorem Compact.stripFrom_range (compact : c.Compact) (force : Bool) {n : Nat}
    (le : n ≤ c.numTotalQubits) (stageCompact : stage.Compact)
    (renumbered : c.Renumbered stage (c.Staged force n) (c.StagedLogical force n)) :
    ∃ next, Circuit.stripFrom force true stage (List.range n).reverse = next.done () ∧
      next.Compact ∧
      c.Renumbered next (c.Staged force 0) (c.StagedLogical force 0) := by
  induction n generalizing stage with
  | zero => exact ⟨stage, rfl, stageCompact, renumbered⟩
  | succ n ih =>
      have below : n < c.numTotalQubits := le
      rcases compact.layout.exists_value below with ⟨l, held⟩
      have left : c.Staged force (n + 1) n := .inl (Nat.lt_succ_self n)
      have leftLogical : c.StagedLogical force (n + 1) l :=
        (stagedLogical_of_held compact held).mpr left
      have stageHeld := renumbered.layout left
      rw [count_staged_succ, held, Option.map_some] at stageHeld
      rw [List.range_succ, List.reverse_append, List.reverse_singleton, List.singleton_append,
        Circuit.stripFrom]
      simp only [stageHeld]
      by_cases kept : c.Kept force n
      · rw [if_pos ((kept_staged compact stageCompact renumbered held).mpr kept)]
        exact ih (Nat.le_of_succ_le le) stageCompact
          (renumbered.congr (staged_succ_of_kept kept) fun m => staged_succ_of_kept kept _)
      · rw [if_neg fun keeps => kept ((kept_staged compact stageCompact renumbered held).mp keeps)]
        rcases stageCompact.removeAndClose stageHeld with ⟨removed, done, closed, closedCompact⟩
        rw [done]
        apply ih (Nat.le_of_succ_le le) closedCompact
        have ranked : stage.Closed (removed.closeUp (Nat.count (c.StagedLogical force (n + 1)) l) n)
            (Nat.count (c.Staged force (n + 1)) n)
            (Nat.count (c.StagedLogical force (n + 1)) l) := by
          rw [count_staged_succ]
          exact closed
        refine (renumbered.close left leftLogical below (compact.layout.value_lt held) ranked).congr
          (staged_succ_of_not_kept below kept) fun m => ?_
        rw [StagedLogical, StagedLogical, ← staged_succ_of_not_kept below kept, Ne, Ne,
          holder_eq_iff compact held]

/-- The physical qubits of a bijection in ascending order. -/
theorem keys_of_bijective {layout : Layout} {n : Nat} (bijective : layout.Bijective n) :
    layout.keys = List.range n := by
  have ascending : layout.keys.Pairwise (· < ·) :=
    List.pairwise_map.mpr (layout.ascending.imp Nat.compare_eq_lt.mp)
  apply ascending.eq_of_mem_iff List.pairwise_lt_range
  intro p
  rw [mem_keys_iff, bijective.contains_iff, List.mem_range]

/-- Stripping a compact circuit with closing up succeeds, and all of its qubits are dealt with. -/
theorem Compact.stripIdle_staged (compact : c.Compact) (force : Bool) :
    ∃ next, c.stripIdle force true = next.done () ∧ next.Compact ∧
      c.Renumbered next (c.Staged force 0) (c.StagedLogical force 0) := by
  have all : ∀ p, c.Staged force c.numTotalQubits p := fun p =>
    (Nat.lt_or_ge p c.numTotalQubits).imp_right .inr
  rw [stripIdle, keys_of_bijective compact.layout]
  exact compact.stripFrom_range force le_rfl compact (.refl all fun l => all (c.holder l))

/-! ## The closed form -/

theorem Kept.lt (compact : c.Compact)
    (used : ∀ {q}, Operation.anyActsOn q c.ops = true → q < c.numTotalQubits) {p : Nat}
    (kept : c.Kept force p) : p < c.numTotalQubits := by
  rcases kept with acts | ⟨_, l, held, _⟩
  · exact used acts
  · exact compact.layout.lt held

/-- In the end those qubits are left that stripping keeps. -/
theorem staged_zero_iff {p : Nat} (below : p < c.numTotalQubits) :
    c.Staged force 0 p ↔ c.Kept force p := by
  constructor
  · rintro (less | kept | above)
    · exact absurd less (Nat.not_lt_zero p)
    · exact kept
    · omega
  · intro kept
    exact .inr (.inl kept)

theorem stagedLogical_zero_iff (compact : c.Compact) {l : Nat} (below : l < c.numTotalQubits) :
    c.StagedLogical force 0 l ↔ c.KeptLogical force l := by
  rcases compact.layout.surjective below with ⟨p, held⟩
  rw [stagedLogical_of_held compact held, staged_zero_iff (compact.layout.lt held), KeptLogical]
  constructor
  · intro kept
    exact ⟨p, kept, held⟩
  · rintro ⟨q, kept, heldQ⟩
    rw [compact.layout.injective held heldQ]
    exact kept

/-- Stripping a compact circuit with closing up succeeds.  It keeps the qubits that the circuit has
a use for before the first removal, replaces every physical and every logical index by its rank
among the kept ones, changes nothing else, and leaves a compact circuit. -/
theorem stripIdle_renumbers (compact : c.Compact) (force : Bool)
    (outputs : ∀ {p o}, c.outputPermutation.find? p = some o → o < c.numTotalQubits)
    (used : ∀ {q}, Operation.anyActsOn q c.ops = true → q < c.numTotalQubits)
    (plain : Operation.allConditionsPlain c.ops = true) :
    ∃ next, c.stripIdle force true = next.done () ∧
      c.Renumbered next (c.Kept force) (c.KeptLogical force) ∧
      (∀ q ∈ Operation.occurrencesAll c.ops, c.Kept force q) ∧
      next.numQubits =
        Nat.count (fun p => c.Kept force p ∧ covers c.qregs p = true) c.numTotalQubits ∧
      next.numAncillae =
        Nat.count (fun p => c.Kept force p ∧ covers c.ancregs p = true) c.numTotalQubits ∧
      next.Compact ∧
      (force = false →
        ∀ {p o}, next.outputPermutation.find? p = some o → o < next.numTotalQubits) := by
  obtain ⟨next, stripped, nextCompact, staged⟩ := compact.stripIdle_staged force
  have occurring : ∀ q ∈ Operation.occurrencesAll c.ops, c.Kept force q := fun q mem =>
    .inl (Operation.anyActsOn_of_mem_occurrencesAll plain mem)
  have renumbered : c.Renumbered next (c.Kept force) (c.KeptLogical force) := by
    refine staged.restrict (fun p => staged_zero_iff) (Kept.lt compact used)
      (fun l => stagedLogical_zero_iff compact) ?_ occurring compact.layout.value_lt outputs
    rintro l ⟨p, _, held⟩
    exact compact.layout.value_lt held
  refine ⟨next, stripped, renumbered, occurring, renumbered.numQubits_eq nextCompact,
    renumbered.numAncillae_eq nextCompact, nextCompact, ?_⟩
  rintro rfl r o output
  have below := nextCompact.output_lt (contains_iff_find?.mpr ⟨o, output⟩)
  rw [staged.total] at below
  rcases exists_count_eq below with ⟨q, _, leftQ, rfl⟩
  rw [staged.output leftQ] at output
  rcases Option.map_eq_some_iff.mp output with ⟨o, stored, rfl⟩
  rw [staged.totalLogical]
  exact Nat.count_strict_mono (stagedLogical_of_output compact leftQ stored) (outputs stored)

/-- Of three qubits only the last one is measured, so the others are removed. -/
theorem stripIdle_renumbers_measured :
    let c : Circuit Float := { (blank Config.default).insertQubits 3 "q" with
      ops := [.nonUnitary (.ofMeasure [2] [0])] }
    ∃ next : Circuit Float, c.stripIdle false true = next.done () ∧ next.numTotalQubits = 1 ∧
      next.ops = [.nonUnitary (.ofMeasure [0] [0])] ∧
      next.initialLayout.find? 0 = some 0 ∧ next.Compact := by
  intro c
  have built : ((blank Config.default : Circuit Float).insertQubits 3 "q").Compact :=
    (compact_blank _).extends ((compact_blank _).insertQubits_extends rfl (by decide))
  have compact : c.Compact := built.withProgram _ _ _
  have total : c.numTotalQubits = 3 := rfl
  have outputs : ∀ {p o}, c.outputPermutation.find? p = some o → o < c.numTotalQubits := by
    intro p o output
    change (extendLayout .empty 0 3).find? p = some o at output
    rw [find?_extendLayout] at output
    split at output
    · next inside =>
        obtain rfl := Option.some.inj output
        exact inside.2
    · contradiction
  have used : ∀ {q}, Operation.anyActsOn q c.ops = true → q < c.numTotalQubits := by
    intro q acts
    have measured : q = 2 := by
      simpa [c, Operation.anyActsOn, Operation.actsOn, Operation.ownsQubit, Operation.targets,
        Operation.controls, SortedMap.keys, SortedMap.empty, NonUnitary.ofMeasure] using acts
    omega
  obtain ⟨next, stripped, renumbered, _, _, _, nextCompact, _⟩ :=
    stripIdle_renumbers compact false outputs used rfl
  have kept : c.Kept false 2 := by decide
  have rank : Nat.count (c.Kept false) 2 = 0 := by decide
  have layout := renumbered.layout kept
  rw [rank] at layout
  refine ⟨next, stripped, ?_, ?_, ?_, nextCompact⟩
  · rw [renumbered.total]
    decide
  · rw [renumbered.ops]
    change [Operation.nonUnitary (.ofMeasure [Nat.count (c.Kept false) 2] [0])] = _
    rw [rank]
  · rw [layout]
    decide

end Circuit

end QuantumCircuit
