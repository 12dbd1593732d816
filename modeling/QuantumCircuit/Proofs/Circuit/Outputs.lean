import QuantumCircuit.Proofs.Circuit.Holders
import QuantumCircuit.Proofs.Circuit.Strip

/-!
# Outputs after stripping

A forced strip takes out every idle qubit.  With it goes the entry that it has in the output
permutation, but not an entry of another qubit that names the logical qubit it held.  Such an entry
is renumbered along with the others, and it names then what the next logical qubit that is kept has
become.  So the output permutation follows the renumbering exactly if no qubit that is kept has an
output that is not.
-/

namespace QuantumCircuit

open SortedMap

namespace Circuit

variable {S : Type} {c stage next : Circuit S} {total : Nat}

/-! ## What is left -/

/-- The physical indices that are left when a forced strip has dealt with all qubits from `n` on.
Indices from `total` on belong to no qubit. -/
def Left (c : Circuit S) (total n p : Nat) : Prop :=
  p < n ∨ c.Kept true p ∨ total ≤ p

instance (c : Circuit S) (total n : Nat) : DecidablePred (c.Left total n) := fun _ =>
  inferInstanceAs (Decidable (_ ∨ _ ∨ _))

/-- The logical indices that are left then. -/
def LeftLogical (c : Circuit S) (total n l : Nat) : Prop :=
  ∃ p, c.Left total n p ∧ c.initialLayout.find? p = some l

instance (c : Circuit S) (total n : Nat) : DecidablePred (c.LeftLogical total n) := fun l =>
  decidable_of_iff (∃ e ∈ c.initialLayout.entries, c.Left total n e.1 ∧ e.2 = l) <| by
    constructor
    · rintro ⟨⟨p, l⟩, stored, left, rfl⟩
      exact ⟨p, left, find?_of_mem_entries stored⟩
    · rintro ⟨p, left, held⟩
      exact ⟨(p, l), mem_entries_of_find? held, left, rfl⟩

/-- A forced strip keeps a qubit if an operation touches it. -/
theorem kept_true_iff {p : Nat} : c.Kept true p ↔ Operation.anyActsOn p c.ops = true :=
  or_iff_left fun needed => Bool.noConfusion needed.1

/-- The qubit that is dealt with next still has its index. -/
theorem count_left_succ (n : Nat) : Nat.count (c.Left total (n + 1)) n = n :=
  Nat.count_of_forall fun _ less => .inl (Nat.lt_succ_of_lt less)

theorem left_succ_iff_of_kept {n : Nat} (kept : c.Kept true n) (p : Nat) :
    c.Left total (n + 1) p ↔ c.Left total n p := by
  rw [Left, Left, Nat.lt_succ_iff_lt_or_eq]
  constructor
  · rintro ((below | rfl) | old)
    · exact .inl below
    · exact .inr (.inl kept)
    · exact .inr old
  · rintro (below | old)
    · exact .inl (.inl below)
    · exact .inr old

theorem left_iff_of_idle {n : Nat} (below : n < total) (idle : ¬ c.Kept true n) (p : Nat) :
    c.Left total n p ↔ c.Left total (n + 1) p ∧ p ≠ n := by
  rw [Left, Left, Nat.lt_succ_iff_lt_or_eq]
  constructor
  · rintro (less | kept | above)
    · exact ⟨.inl (.inl less), Nat.ne_of_lt less⟩
    · refine ⟨.inr (.inl kept), ?_⟩
      rintro rfl
      exact idle kept
    · exact ⟨.inr (.inr above), by omega⟩
  · rintro ⟨(less | rfl) | old, other⟩
    · exact .inl less
    · exact absurd rfl other
    · exact .inr old

theorem leftLogical_iff_of_idle (injective : c.initialLayout.Injective) {n l : Nat}
    (below : n < total) (idle : ¬ c.Kept true n) (held : c.initialLayout.find? n = some l)
    (m : Nat) : c.LeftLogical total n m ↔ c.LeftLogical total (n + 1) m ∧ m ≠ l := by
  constructor
  · rintro ⟨p, left, heldP⟩
    obtain ⟨before, other⟩ := (left_iff_of_idle below idle p).mp left
    refine ⟨⟨p, before, heldP⟩, ?_⟩
    rintro rfl
    exact other (injective heldP held)
  · rintro ⟨⟨p, left, heldP⟩, other⟩
    refine ⟨p, (left_iff_of_idle below idle p).mpr ⟨left, ?_⟩, heldP⟩
    rintro rfl
    rw [held] at heldP
    exact other (Option.some.inj heldP).symm

/-! ## Stages -/

/-- The layouts and operations of a stage: every index that is left is replaced by its rank. -/
structure Relaid (c stage : Circuit S) (total n : Nat) : Prop where
  /-- The operations refer to ranks. -/
  ops : stage.ops = Operation.remapAll (Nat.count (c.Left total n)) c.ops
  /-- Qubits that are left hold the same logical qubits, under their ranks. -/
  layout : ∀ {p}, c.Left total n p → stage.initialLayout.find? (Nat.count (c.Left total n) p) =
    (c.initialLayout.find? p).map (Nat.count (c.LeftLogical total n))
  /-- They have the same outputs, under the number of logical indices below that are left. -/
  output : ∀ {p}, c.Left total n p →
    stage.outputPermutation.find? (Nat.count (c.Left total n) p) =
      (c.outputPermutation.find? p).map (Nat.count (c.LeftLogical total n))

/-- Before the first removal all indices are left. -/
theorem relaid_refl (layout : c.initialLayout.Bijective total)
    (values : ∀ {p o}, c.outputPermutation.find? p = some o → o < total) :
    c.Relaid c total total := by
  have rank : Nat.count (c.Left total total) = id := funext fun n =>
    Nat.count_of_forall fun p _ => (Nat.lt_or_ge p total).imp_right .inr
  have rankLogical : ∀ {l}, l < total → Nat.count (c.LeftLogical total total) l = l := by
    intro l below
    refine Nat.count_of_forall fun m less => ?_
    obtain ⟨p, held⟩ := layout.surjective (Nat.lt_trans less below)
    exact ⟨p, .inl (layout.lt held), held⟩
  refine ⟨?_, fun {p} _ => ?_, fun {p} _ => ?_⟩
  · rw [rank, Operation.remapAll_id]
  · rw [rank, id]
    cases held : c.initialLayout.find? p with
    | none => rfl
    | some l => rw [Option.map_some, rankLogical (layout.value_lt held)]
  · rw [rank, id]
    cases output : c.outputPermutation.find? p with
    | none => rfl
    | some o => rw [Option.map_some, rankLogical (values output)]

/-- A qubit that is kept changes nothing. -/
theorem Relaid.keep {n : Nat} (relaid : c.Relaid stage total (n + 1)) (kept : c.Kept true n) :
    c.Relaid stage total n := by
  have rank : Nat.count (c.Left total n) = Nat.count (c.Left total (n + 1)) :=
    funext fun _ => count_congr_below fun p _ => (left_succ_iff_of_kept kept p).symm
  have rankLogical : Nat.count (c.LeftLogical total n) =
      Nat.count (c.LeftLogical total (n + 1)) :=
    funext fun _ => count_congr_below fun l _ => exists_congr fun p =>
      and_congr_left fun _ => (left_succ_iff_of_kept kept p).symm
  refine ⟨?_, fun {p} left => ?_, fun {p} left => ?_⟩
  · rw [rank, relaid.ops]
  · rw [rank, rankLogical, relaid.layout ((left_succ_iff_of_kept kept p).mpr left)]
  · rw [rank, rankLogical, relaid.output ((left_succ_iff_of_kept kept p).mpr left)]

/-- Closing up behind a qubit that is removed moves every index to its rank among those that are
left, also an output that the removed qubit held. -/
theorem Relaid.close {n l : Nat} (relaid : c.Relaid stage total (n + 1))
    (injective : c.initialLayout.Injective) (below : n < total) (idle : ¬ c.Kept true n)
    (held : c.initialLayout.find? n = some l)
    (ops : next.ops = Operation.remapAll (closeGap n) stage.ops)
    (layout : ∀ q, next.initialLayout.find? q = (stage.initialLayout.find? (openGap n q)).map
      (closeGap (Nat.count (c.LeftLogical total (n + 1)) l)))
    (output : ∀ q, next.outputPermutation.find? q =
      (stage.outputPermutation.find? (openGap n q)).map
        (closeGap (Nat.count (c.LeftLogical total (n + 1)) l))) :
    c.Relaid next total n := by
  have leftOwn : c.Left total (n + 1) n := .inl (Nat.lt_succ_self n)
  have leftLogical : c.LeftLogical total (n + 1) l := ⟨n, leftOwn, held⟩
  have rank : Nat.count (c.Left total n) = closeGap n ∘ Nat.count (c.Left total (n + 1)) := by
    funext k
    have closed := count_and_ne leftOwn k
    rw [count_left_succ] at closed
    rw [Function.comp_apply, ← closed]
    exact count_congr_below fun p _ => left_iff_of_idle below idle p
  have rankLogical : Nat.count (c.LeftLogical total n) =
      closeGap (Nat.count (c.LeftLogical total (n + 1)) l) ∘
        Nat.count (c.LeftLogical total (n + 1)) := by
    funext k
    rw [Function.comp_apply, ← count_and_ne leftLogical]
    exact count_congr_below fun m _ => leftLogical_iff_of_idle injective below idle held m
  have opened : ∀ {p}, c.Left total (n + 1) p → p ≠ n →
      openGap n (closeGap n (Nat.count (c.Left total (n + 1)) p)) =
        Nat.count (c.Left total (n + 1)) p := by
    intro p left other
    refine openGap_closeGap fun same => other (Nat.count_injective left leftOwn ?_)
    rw [same, count_left_succ]
  refine ⟨?_, fun {p} left => ?_, fun {p} left => ?_⟩
  · rw [ops, relaid.ops, Operation.remapAll_remapAll, rank]
  · obtain ⟨before, other⟩ := (left_iff_of_idle below idle p).mp left
    rw [rank, rankLogical, Function.comp_apply, layout, opened before other,
      relaid.layout before, Option.map_map]
  · obtain ⟨before, other⟩ := (left_iff_of_idle below idle p).mp left
    rw [rank, rankLogical, Function.comp_apply, output, opened before other,
      relaid.output before, Option.map_map]

/-- At every stage the qubit that is dealt with next is idle if it was before the first removal. -/
theorem Relaid.isIdle_iff {n : Nat} (relaid : c.Relaid stage total (n + 1)) :
    stage.isIdle n = false ↔ c.Kept true n := by
  have leftOwn : c.Left total (n + 1) n := .inl (Nat.lt_succ_self n)
  rw [isIdle, Bool.not_eq_false', relaid.ops, Operation.anyActsOn_remapAll, kept_true_iff]
  constructor
  · rintro ⟨p, acts, same⟩
    have left : c.Left total (n + 1) p := .inr (.inl (kept_true_iff.mpr acts))
    rwa [← Nat.count_injective left leftOwn (same.trans (count_left_succ n).symm)]
  · exact fun acts => ⟨n, acts, count_left_succ n⟩

/-! ## The loop -/

/-- Dealing with the qubits below `n`, from the highest one down. -/
theorem relaid_stripFrom (layout : c.initialLayout.Bijective total) {n : Nat} (le : n ≤ total)
    (injective : stage.initialLayout.Injective) (relaid : c.Relaid stage total n)
    (stripped : stripFrom true true stage (List.range n).reverse = next.done ()) :
    c.Relaid next total 0 := by
  induction n generalizing stage with
  | zero =>
      have same : stage = next := congrArg Outcome.circuit stripped
      rwa [← same]
  | succ n ih =>
      have below : n < total := le
      obtain ⟨l, held⟩ := layout.exists_value below
      have stageHeld := relaid.layout (.inl (Nat.lt_succ_self n))
      rw [count_left_succ, held, Option.map_some] at stageHeld
      rw [List.range_succ, List.reverse_append, List.reverse_singleton, List.singleton_append,
        stripFrom] at stripped
      simp only [stageHeld, Bool.not_true, Bool.false_and, Bool.or_false, Bool.not_eq_true',
        relaid.isIdle_iff, if_true] at stripped
      split at stripped
      · next kept => exact ih (Nat.le_of_succ_le le) injective (relaid.keep kept) stripped
      · next idle =>
          rcases removeQubit_outcome stage (Nat.count (c.LeftLogical total (n + 1)) l) with
            ⟨_, _, _, failed⟩ | ⟨p, _, _, _, _, found, _, removed⟩
          · rw [failed] at stripped
            exact absurd (congrArg Outcome.answer stripped) (by simp [Outcome.andThen, done])
          · obtain rfl : p = n := injective (find?_of_physicalOf? found) stageHeld
            rw [removed] at stripped
            refine ih (Nat.le_of_succ_le le) (injective.closed stageHeld) ?_ stripped
            exact relaid.close (fun _ _ _ => layout.injective) below idle held rfl
              (find?_closeLayout_erase _ _ _) (find?_closeLayout_erase _ _ _)

/-! ## Outputs that follow -/

/-- In the end those logical qubits are left that kept physical qubits hold. -/
theorem leftLogical_zero_iff (layout : c.initialLayout.Bijective total) (l : Nat) :
    c.LeftLogical total 0 l ↔ c.KeptLogical true l := by
  refine exists_congr fun p => and_congr_left fun held => ?_
  have below := layout.lt held
  constructor
  · rintro (less | kept | above)
    · exact absurd less (Nat.not_lt_zero p)
    · exact kept
    · omega
  · exact fun kept => .inr (.inl kept)

/-- Every index is the rank of one that is left, as none beyond the bound is taken out. -/
theorem exists_count_left_eq (c : Circuit S) (total n r : Nat) :
    ∃ p, c.Left total n p ∧ Nat.count (c.Left total n) p = r := by
  have many : r < Nat.count (c.Left total n) (total + (r + 1)) := by
    have beyond : Nat.count (fun k => c.Left total n (total + k)) (r + 1) = r + 1 :=
      Nat.count_of_forall fun k _ => .inr (.inr (Nat.le_add_right total k))
    rw [Nat.count_add, beyond]
    omega
  obtain ⟨p, _, left, rank⟩ := exists_count_eq many
  exact ⟨p, left, rank⟩

/-- Whether an output permutation follows a strip: it names no logical qubit twice, it names only
logical qubits that are held, and its entries are those of before between qubits that are left, each
under the new indices of both. -/
structure OutputFollows (c next : Circuit S) (total : Nat) : Prop where
  /-- No logical qubit is named twice. -/
  injective : next.outputPermutation.Injective
  /-- The logical qubits that are named are held. -/
  held : ∀ {r m}, next.outputPermutation.find? r = some m →
    ∃ q, next.initialLayout.find? q = some m
  /-- The entries name what they named before, and those that named a removed qubit are gone. -/
  entry_iff : ∀ {r m}, next.outputPermutation.find? r = some m ↔
    ∃ p o, c.outputPermutation.find? p = some o ∧ c.Left total 0 p ∧ c.KeptLogical true o ∧
      Nat.count (c.Left total 0) p = r ∧ Nat.count (c.KeptLogical true) o = m

/-- A forced strip of a circuit whose initial layout is a bijection replaces each physical and
logical index in the layouts by its rank among those that are left; it succeeds on every compact
circuit.  The output permutation, if it named no logical qubit twice, follows exactly if every
output of a qubit that is left is a logical qubit that a kept qubit holds. -/
theorem outputFollows_strip_iff (layout : c.initialLayout.Bijective total)
    (injective : c.outputPermutation.Injective)
    (values : ∀ {p o}, c.outputPermutation.find? p = some o → o < total) :
    (c.Compact → (c.stripIdle true true).answer = .ok ()) ∧
    ∀ next, c.stripIdle true true = next.done () →
      (∀ p, c.Left total 0 p →
        next.initialLayout.find? (Nat.count (c.Left total 0) p) =
          (c.initialLayout.find? p).map (Nat.count (c.KeptLogical true)) ∧
        next.outputPermutation.find? (Nat.count (c.Left total 0) p) =
          (c.outputPermutation.find? p).map (Nat.count (c.KeptLogical true))) ∧
      (c.OutputFollows next total ↔ ∀ p o, c.Left total 0 p →
        c.outputPermutation.find? p = some o → c.KeptLogical true o) := by
  refine ⟨fun compact => ?_, fun next stripped => ?_⟩
  · obtain ⟨next, stripped, -⟩ := compact.stripIdle_staged true
    rw [stripped]
    rfl
  rw [stripIdle, keys_of_bijective layout] at stripped
  have relaid := relaid_stripFrom layout le_rfl (fun _ _ _ => layout.injective)
    (relaid_refl layout values) stripped
  have rankLogical : Nat.count (c.LeftLogical total 0) = Nat.count (c.KeptLogical true) :=
    funext fun _ => count_congr_below fun l _ => leftLogical_zero_iff layout l
  have layouts := @relaid.layout
  have outputs := @relaid.output
  rw [rankLogical] at layouts outputs
  refine ⟨fun p left => ⟨layouts left, outputs left⟩, ?_⟩
  constructor
  · intro follows p o left output
    have moved := outputs left
    rw [output, Option.map_some] at moved
    obtain ⟨q, o', output', left', kept, same, _⟩ := follows.entry_iff.mp moved
    obtain rfl := Nat.count_injective left' left same
    rw [output] at output'
    rwa [Option.some.inj output']
  · intro all
    -- Each entry comes from one entry of before, between qubits that are left.
    have origin : ∀ {r m}, next.outputPermutation.find? r = some m →
        ∃ p o, c.outputPermutation.find? p = some o ∧ c.Left total 0 p ∧ c.KeptLogical true o ∧
          Nat.count (c.Left total 0) p = r ∧ Nat.count (c.KeptLogical true) o = m := by
      intro r m found
      obtain ⟨p, left, rfl⟩ := c.exists_count_left_eq total 0 r
      rw [outputs left, Option.map_eq_some_iff] at found
      obtain ⟨o, output, rank⟩ := found
      exact ⟨p, o, output, left, all p o left output, rfl, rank⟩
    refine ⟨fun r r' m found found' => ?_, fun {r m} found => ?_, fun {r m} => ⟨origin, ?_⟩⟩
    · obtain ⟨p, o, output, _, kept, rfl, rank⟩ := origin found
      obtain ⟨p', o', output', _, kept', rfl, rank'⟩ := origin found'
      obtain rfl := Nat.count_injective kept kept' (rank.trans rank'.symm)
      rw [injective output output']
    · obtain ⟨_, o, _, _, ⟨q, kept, held⟩, _, rfl⟩ := origin found
      refine ⟨Nat.count (c.Left total 0) q, ?_⟩
      rw [layouts (.inr (.inl kept)), held, Option.map_some]
    · rintro ⟨p, o, output, left, _, rfl, rfl⟩
      rw [outputs left, output, Option.map_some]

/-- The output permutation exchanges two qubits that are touched, so it does after the idle one
between them is gone. -/
theorem outputFollows_exchanged :
    let c : Circuit Float := { (blank Config.default).insertQubits 3 "q" with
      ops := [.standard ⟨.x, .empty, [0], []⟩, .standard ⟨.x, .empty, [2], []⟩]
      outputPermutation := SortedMap.ofList [(0, 2), (1, 1), (2, 0)] }
    (c.stripIdle true true).circuit.outputPermutation.entries = [(0, 1), (1, 0)] ∧
      c.OutputFollows (c.stripIdle true true).circuit 3 := by
  intro c
  have layout : c.initialLayout.Bijective 3 := Layout.Bijective.extend Layout.bijective_empty 3
  have entries : ∀ {p o}, c.outputPermutation.find? p = some o →
      (p, o) = (0, 2) ∨ (p, o) = (1, 1) ∨ (p, o) = (2, 0) := by
    intro p o found
    have stored : c.outputPermutation.entries = [(0, 2), (1, 1), (2, 0)] := by decide +kernel
    simpa [stored] using mem_entries_of_find? found
  have injective : c.outputPermutation.Injective := by
    intro p q o found found'
    have first := entries found
    have second := entries found'
    simp only [Prod.mk.injEq] at first second
    omega
  have values : ∀ {p o}, c.outputPermutation.find? p = some o → o < 3 := by
    intro p o found
    have entry := entries found
    simp only [Prod.mk.injEq] at entry
    omega
  have stripped : c.stripIdle true true = (c.stripIdle true true).circuit.done () := rfl
  have follows_iff := ((outputFollows_strip_iff layout injective values).2 _ stripped).2
  refine ⟨by decide +kernel, follows_iff.mpr fun p o left output => ?_⟩
  have entry := entries output
  simp only [Prod.mk.injEq] at entry
  rcases entry with ⟨rfl, rfl⟩ | ⟨rfl, rfl⟩ | ⟨rfl, rfl⟩
  · exact (by decide +kernel : c.KeptLogical true 2)
  · exact absurd left (by decide +kernel)
  · exact (by decide +kernel : c.KeptLogical true 0)

/-- The idle qubit in the middle is the output of the first.  After it is gone, that entry names
what the last one has become, which is the output of the last one, too. -/
theorem not_outputFollows_dangling :
    let c : Circuit Float := { (blank Config.default).insertQubits 3 "q" with
      ops := [.standard ⟨.x, .empty, [0], []⟩, .standard ⟨.x, .empty, [2], []⟩]
      outputPermutation := SortedMap.ofList [(0, 1), (1, 0), (2, 2)] }
    let next := (c.stripIdle true true).circuit
    (c.stripIdle true true).answer = .ok () ∧ c.initialLayout.entries = [(0, 0), (1, 1), (2, 2)] ∧
      next.outputPermutation.entries = [(0, 1), (1, 1)] ∧ ¬ next.outputPermutation.Injective := by
  intro c next
  refine ⟨by decide +kernel, by decide +kernel, by decide +kernel, fun injective => ?_⟩
  have same : 0 = 1 := injective (l := 1) (by decide +kernel) (by decide +kernel)
  exact absurd same (by decide)

end Circuit

end QuantumCircuit
