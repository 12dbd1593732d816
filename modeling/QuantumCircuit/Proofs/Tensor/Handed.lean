import QuantumCircuit.Proofs.Circuit.Emission
import QuantumCircuit.Proofs.Circuit.Flattening
import QuantumCircuit.Proofs.Circuit.Renumbering
import QuantumCircuit.Proofs.Tensor.Advance

/-!
# What the backend is handed

The export hands the backend a gate with each qubit replaced by its rank, and keeps one role for
each qubit on the way.  So a control on a target is lost, and so is the positive one of two controls
on one qubit: the backend is handed the renamed gate exactly if no qubit of it serves in two roles.
-/

namespace QuantumCircuit

open Operation

/-! ## Controls that are kept -/

/-- Of two controls on one qubit the positive one comes first. -/
theorem Control.polarities_of_rank_lt {c d : Control} (less : c.rank < d.rank)
    (same : c.qubit = d.qubit) : c.polarity = .positive ∧ d.polarity = .negative := by
  obtain ⟨q, polarity⟩ := c
  obtain ⟨q', polarity'⟩ := d
  obtain rfl : q = q' := same
  cases polarity <;> cases polarity' <;> simp [rank] at less ⊢

/-- The controls are stored in ascending order, so of two on one qubit the negative one counts. -/
theorem find?_ofList_controls {controls : List Control}
    (ascending : controls.Pairwise fun c d => compare c d = .lt) {q : Nat} {polarity : Polarity} :
    (SortedMap.ofList (controls.map fun c => (c.qubit, some c.polarity))).find? q =
        some (some polarity) ↔
      ⟨q, polarity⟩ ∈ controls ∧ (polarity = .positive → ⟨q, .negative⟩ ∉ controls) := by
  induction controls with
  | nil => simp [SortedMap.ofList]
  | cons c rest ih =>
      rcases List.pairwise_cons.mp ascending with ⟨below, ascendingRest⟩
      have least : ∀ d ∈ rest, c.qubit = d.qubit →
          c.polarity = .positive ∧ d.polarity = .negative := fun d mem =>
        Control.polarities_of_rank_lt (Nat.compare_eq_lt.mp (below d mem))
      have absent : (SortedMap.ofList (rest.map fun d => (d.qubit, some d.polarity))).find? q =
          none ↔ ∀ d ∈ rest, d.qubit ≠ q := by
        rw [← SortedMap.contains_eq_false_iff, ← Bool.not_eq_true, SortedMap.contains_ofList,
          List.map_map, List.mem_map]
        simp
      rw [List.map_cons, SortedMap.find?_ofList_cons, Option.or_eq_some_iff, ih ascendingRest,
        absent, List.mem_cons, List.mem_cons]
      constructor
      · rintro (⟨mem, single⟩ | ⟨later, isHead⟩)
        · refine ⟨.inr mem, fun positive => not_or.mpr ⟨?_, single positive⟩⟩
          rintro rfl
          exact absurd (least _ mem rfl).1 (by simp)
        · split at isHead
          · next equal =>
              obtain rfl := Option.some.inj (Option.some.inj isHead)
              refine ⟨.inl (by rw [equal]), fun positive => not_or.mpr ⟨?_, ?_⟩⟩
              · rintro rfl
                contradiction
              · exact fun negative => later _ negative rfl
          · contradiction
      · rintro ⟨rfl | mem, single⟩
        · refine .inr ⟨fun d mem same => ?_, if_pos rfl⟩
          obtain ⟨positive, negative⟩ := least d mem same.symm
          obtain rfl : d = ⟨q, .negative⟩ := congrArg₂ Control.mk same negative
          exact single positive (.inr mem)
        · exact .inl ⟨mem, fun positive negative => single positive (.inr negative)⟩

namespace Gate

variable {P : Type}

/-- Whether a control of a gate is on no target, and is not the positive one of two controls on one
qubit. -/
def KeepsControl (g : Gate P) (c : Control) : Prop :=
  c.qubit ∉ g.targets ∧ (c.polarity = .positive → ⟨c.qubit, .negative⟩ ∉ g.controls.keys)

/-- Whether no qubit of a gate serves in two roles: no control is on a target, and no two controls
are on one qubit.  Targets may coincide. -/
def OneRoleEach (g : Gate P) : Prop :=
  (∀ c ∈ g.controls.keys, c.qubit ∉ g.targets) ∧
    ∀ c ∈ g.controls.keys, ∀ d ∈ g.controls.keys, c.qubit = d.qubit → c = d

instance (g : Gate P) : Decidable g.OneRoleEach :=
  inferInstanceAs (Decidable (_ ∧ _))

/-- All controls are kept exactly if no qubit serves in two roles. -/
theorem oneRoleEach_iff {g : Gate P} :
    g.OneRoleEach ↔ ∀ c ∈ g.controls.keys, g.KeepsControl c := by
  constructor
  · rintro ⟨apart, single⟩ c mem
    refine ⟨apart c mem, fun positive negative => ?_⟩
    have same := single c mem _ negative rfl
    rw [same] at positive
    contradiction
  · intro kept
    refine ⟨fun c mem => (kept c mem).1, ?_⟩
    rintro ⟨q, polarity⟩ mem ⟨q', polarity'⟩ mem' equal
    obtain rfl : q = q' := equal
    cases polarity with
    | positive =>
        cases polarity' with
        | positive => rfl
        | negative => exact absurd mem' ((kept _ mem).2 rfl)
    | negative =>
        cases polarity' with
        | positive => exact absurd mem ((kept _ mem').2 rfl)
        | negative => rfl

/-! ## Ranks -/

/-- The rank of a qubit among those of a gate: the number of them below it. -/
def rank (g : Gate P) (q : Nat) : Nat :=
  Nat.count (· ∈ g.operands) q

theorem rank_injective {g : Gate P} {q q' : Nat} (mem : q ∈ g.operands) (mem' : q' ∈ g.operands)
    (same : g.rank q = g.rank q') : q = q' :=
  Nat.count_injective mem mem' same

end Gate

/-- The place in an ascending list is the number of members below. -/
theorem idxOf_eq_count {l : List Nat} (ascending : l.Pairwise (· < ·)) {q : Nat} (mem : q ∈ l) :
    l.idxOf q = Nat.count (· ∈ l) q := by
  induction l with
  | nil => contradiction
  | cons head rest ih =>
      rcases List.pairwise_cons.mp ascending with ⟨below, ascendingRest⟩
      have noneBelow : Nat.count (· ∈ head :: rest) head = 0 := by
        rw [Nat.count_iff_forall_not]
        intro k less member
        rcases List.mem_cons.mp member with rfl | later
        · exact Nat.lt_irrefl k less
        · exact Nat.lt_asymm less (below k later)
      rcases List.mem_cons.mp mem with rfl | later
      · rw [List.idxOf_cons_self, noneBelow]
      · have less := below q later
        have withoutHead : ∀ k < q, k ∈ rest ↔ k ∈ head :: rest ∧ k ≠ head := by
          intro k _
          rw [List.mem_cons]
          constructor
          · exact fun member => ⟨.inr member, fun equal =>
              Nat.lt_irrefl head (equal ▸ below k member)⟩
          · exact fun ⟨member, other⟩ => member.resolve_left other
        have isKept : head ∈ head :: rest := List.mem_cons_self
        rw [List.idxOf_cons_ne rest (Nat.ne_of_lt less), ih ascendingRest later,
          Circuit.count_congr_below withoutHead, Circuit.count_and_ne isKept,
          Circuit.closeGap_count isKept, if_pos less]
        exact Nat.sub_add_cancel (Nat.zero_lt_of_lt (Nat.count_strict_mono isKept less))

namespace Tape

variable {S σ : Type}

/-- A qubit of a gate has its rank as its place. -/
theorem idxOf_keys_roles {g : Gate S} {q : Nat} (mem : q ∈ g.operands) :
    (roles g).keys.idxOf q = g.rank q := by
  rw [idxOf_eq_count (roles g).pairwise_keys_lt (mem_keys_roles.mpr mem), Gate.rank]
  simp only [mem_keys_roles]

/-! ## The gate on the ranks -/

/-- The roles of the controls that are kept. -/
theorem find?_roles_control {g : Gate S} {q : Nat} {polarity : Polarity} :
    (roles g).find? q = some (some polarity) ↔
      ⟨q, polarity⟩ ∈ g.controls.keys ∧ g.KeepsControl ⟨q, polarity⟩ := by
  have ascending : g.controls.keys.Pairwise fun c d => compare c d = .lt :=
    List.pairwise_map.mpr g.controls.ascending
  rw [roles, SortedMap.find?_insertAll_const, Gate.KeepsControl]
  by_cases target : q ∈ g.targets
  · rw [if_pos target]
    simp [target]
  · rw [if_neg target, find?_ofList_controls ascending, and_iff_right target]

/-- The gate on the ranks has the controls that are kept, each on the rank of its qubit. -/
theorem mem_controls_localGate_iff {g : Gate S} {c : Control} :
    c ∈ (localGate g).controls.keys ↔
      ∃ d ∈ g.controls.keys, g.KeepsControl d ∧ remapControl g.rank d = c := by
  rw [localGate, SortedSet.mem_keys_ofList, List.mem_filterMap]
  constructor
  · rintro ⟨⟨q, role⟩, stored, isControl⟩
    rcases Option.map_eq_some_iff.mp isControl with ⟨polarity, isPolarity, renamed⟩
    obtain rfl : role = some polarity := isPolarity
    obtain ⟨mem, kept⟩ := find?_roles_control.mp (SortedMap.find?_of_mem_entries stored)
    refine ⟨⟨q, polarity⟩, mem, kept, ?_⟩
    rw [← renamed, idxOf_keys_roles (Gate.qubit_mem_operands mem)]
    rfl
  · rintro ⟨⟨q, polarity⟩, mem, kept, rfl⟩
    refine ⟨(q, some polarity),
      SortedMap.mem_entries_of_find? (find?_roles_control.mpr ⟨mem, kept⟩), ?_⟩
    rw [Option.map_some, idxOf_keys_roles (Gate.qubit_mem_operands mem)]
    rfl

theorem targets_localGate (g : Gate S) : (localGate g).targets = g.targets.map g.rank :=
  List.map_congr_left fun _ mem => idxOf_keys_roles (Gate.target_mem_operands mem)

/-- The gate on the ranks is the gate with each qubit replaced by its rank exactly if no qubit
serves in two roles. -/
theorem localGate_eq_remapGate_iff {g : Gate S} :
    localGate g = remapGate g.rank g ↔ g.OneRoleEach := by
  rw [Gate.oneRoleEach_iff]
  constructor
  · intro same c mem
    have renamed : remapControl g.rank c ∈ (localGate g).controls.keys := by
      rw [same, remapGate, SortedSet.mem_keys_ofList]
      exact List.mem_map.mpr ⟨c, mem, rfl⟩
    rcases mem_controls_localGate_iff.mp renamed with ⟨d, mem', kept, equal⟩
    rcases Control.mk.inj equal with ⟨ranks, polarities⟩
    have qubits := Gate.rank_injective (Gate.qubit_mem_operands mem')
      (Gate.qubit_mem_operands mem) ranks
    obtain rfl : d = c := congrArg₂ Control.mk qubits polarities
    exact kept
  · intro kept
    have controls : (localGate g).controls =
        SortedSet.ofList (g.controls.keys.map (remapControl g.rank)) := by
      apply SortedSet.ext_keys
      intro c
      rw [mem_controls_localGate_iff, SortedSet.mem_keys_ofList, List.mem_map]
      exact exists_congr fun d => and_congr_right fun mem => and_iff_right (kept d mem)
    rw [remapGate, ← controls, ← targets_localGate]
    rfl

end Tape

/-! ## What is handed over -/

/-- The backend that also keeps the operations that it is handed. -/
def Backend.logged {S σ : Type} (b : Backend S σ) : Backend S (List (Operation S) × σ) where
  build state op :=
    let (next, diagram) := b.build state.2 op
    ((state.1 ++ [op], next), diagram)

namespace Tape

variable {S σ : Type}

/-- Whatever the backend answers, it is handed the gate on the ranks. -/
theorem handed_writeGate (b : Backend S σ) {g : Gate S} {t : Tape S (List (Operation S) × σ)}
    (below : ∀ q ∈ g.operands, q < t.legs.width) :
    (writeGate b.logged g t).1.backend.1 = t.backend.1 ++ [.standard (localGate g)] := by
  rw [writeGate, find?_beyond_eq_none_iff.mpr below]
  dsimp only [Backend.logged]
  split <;> rfl

theorem width_legs_writeGate (b : Backend S σ) (g : Gate S) (t : Tape S σ) :
    (writeGate b g t).1.legs.width = t.legs.width := by
  rcases writeGate_cases b g t with ⟨_, e, step⟩ | ⟨_, backend, e, _, step⟩ |
    ⟨_, backend, m, _, step⟩
  · rw [step]
  · rw [step]
    exact width_advance t.legs _
  · rw [step]
    exact width_advance t.legs _

theorem width_legs_writeGates (b : Backend S σ) (gates : List (Gate S)) (t : Tape S σ) :
    (writeGates b t gates).1.legs.width = t.legs.width := by
  induction gates generalizing t with
  | nil => rfl
  | cons g gates ih =>
      have first := width_legs_writeGate b g t
      rw [writeGates]
      rcases step : writeGate b g t with ⟨next, _ | _⟩
      · rw [step] at first
        exact first
      · rw [step] at first
        exact (ih next).trans first

/-- The export does not change the number of qubits that have legs. -/
theorem width_legs_writeAll (b : Backend S σ) (ops : List (Operation S)) (t : Tape S σ) :
    (writeAll b t ops).1.legs.width = t.legs.width := by
  rw [(writeAll_reachedGates b ops t).tape, width_legs_writeGates]

end Tape

namespace Circuit

variable {S : Type} [Scalar S] {c : Circuit S} {kind : OpKind} {params : List (Parameter S)}
  {controls : Controls} {targets : List Nat}

/-- A gate that is taken in is appended, its kind has a number of targets, and its qubits are in
range. -/
theorem emit_accepted (accepted : (c.emit kind params controls targets).answer = .ok ()) :
    (c.emit kind params controls targets).circuit =
        c.push (gateOperation kind params controls targets) ∧
      kind.targetCount? ≠ none ∧
      ∀ q ∈ controls.keys.map (·.qubit) ++ targets, q < c.numTotalQubits := by
  unfold emit pushUnless at accepted ⊢
  cases error : (arityError? kind targets.length params.length).or
      (c.qubitError? kind.name (controls.keys.map (·.qubit) ++ targets)) with
  | some e =>
      rw [error] at accepted
      contradiction
  | none =>
      rcases Option.or_eq_none_iff.mp error with ⟨arity, qubits⟩
      have isGate := (arityError?_eq_none_iff.mp arity).1
      exact ⟨rfl, fun noGate => Option.some_ne_none _ (isGate.symm.trans noGate),
        qubitError?_eq_none_iff.mp qubits⟩

/-- After a gate is taken in, the export of the circuit hands the backend what it handed before, and
then a gate of the same kind and with the same parameters, whose targets are those of the gate in
their order and whose controls are some of the gate's, all with each qubit replaced by its rank
among the qubits of the gate.  It lacks the controls on targets, and the positive one of two
controls on one qubit, so it is the gate itself on the ranks exactly if no qubit serves in two
roles. -/
theorem emit_hands_renamed_iff {values : List S}
    (numbers : params.mapM Parameter.number? = some values)
    (accepted : (c.emit kind params controls targets).answer = .ok ()) :
    let g : Gate S := ⟨kind, controls, targets, values⟩
    ∃ handed : Gate S,
      (∀ {σ : Type} (b : Backend S σ) (start : σ),
        (Network.write b.logged ([], start) c).2 = .ok () →
          (Network.write b.logged ([], start)
              (c.emit kind params controls targets).circuit).1.backend.1 =
            (Network.write b.logged ([], start) c).1.backend.1 ++ [.standard handed]) ∧
      handed.kind = kind ∧ handed.params = values ∧ handed.targets = targets.map g.rank ∧
      (∀ d, d ∈ handed.controls.keys ↔ ∃ e ∈ controls.keys, (e.qubit ∉ targets ∧
        (e.polarity = .positive → ⟨e.qubit, .negative⟩ ∉ controls.keys)) ∧
          remapControl g.rank e = d) ∧
      (handed = remapGate g.rank g ↔ g.OneRoleEach) := by
  intro g
  obtain ⟨circuit, isGate, below⟩ := emit_accepted accepted
  refine ⟨Tape.localGate g, fun b start success => ?_, rfl, rfl, Tape.targets_localGate g,
    fun d => Tape.mem_controls_localGate_iff, Tape.localGate_eq_remapGate_iff⟩
  have notBarrier : kind ≠ .barrier := by
    rintro rfl
    exact isGate rfl
  have isStandard : gateOperation kind params controls targets = .standard g := by
    rw [gateOperation, numbers]
  have legs := Tape.width_legs_writeAll b.logged c.ops ⟨.zero (Network.width c), 0, ([], start), []⟩
  rw [circuit, isStandard]
  change (Tape.writeAll b.logged ⟨.zero (Network.width c), 0, ([], start), []⟩
    (c.ops ++ [.standard g])).1.backend.1 = _
  rw [Tape.writeAll_append]
  unfold Network.write at success ⊢
  rcases earlier : Tape.writeAll b.logged ⟨.zero (Network.width c), 0, ([], start), []⟩ c.ops with
    ⟨t, e | _⟩
  · rw [earlier] at success
    contradiction
  · rw [earlier] at legs
    have within : ∀ q ∈ g.operands, q < t.legs.width := by
      intro q mem
      have counted : c.numTotalQubits ≤ Network.width c := Nat.le_max_right _ _
      rw [show t.legs.width = Network.width c from legs]
      exact Nat.lt_of_lt_of_le (below q mem) counted
    have handed := Tape.handed_writeGate b within
    dsimp only
    rw [Tape.writeAll, Tape.write, if_neg notBarrier]
    rcases step : Tape.writeGate b.logged g t with ⟨next, _ | _⟩
    · rw [step] at handed
      exact handed
    · rw [step] at handed
      exact handed

/-- A gate with controls of either polarity around its target. -/
theorem emit_hands_renamed_around :
    let c : Circuit Float := (blank Config.default).insertQubits 4 "q"
    let controls : Controls := .ofList [⟨1, .positive⟩, ⟨3, .negative⟩]
    (Network.write (Backend.recorder none).logged ([], [])
        (c.emit .x [] controls [2]).circuit).1.backend.1 =
      [.standard ⟨.x, .ofList [⟨0, .positive⟩, ⟨2, .negative⟩], [1], []⟩] := by
  intro c controls
  have accepted : (c.emit .x [] controls [2]).answer = .ok () := rfl
  obtain ⟨handed, log, _, _, _, _, renamed⟩ := emit_hands_renamed_iff rfl accepted
  rw [log (Backend.recorder none) [] rfl, renamed.mpr (by decide)]
  rfl

/-- The positive one of two controls on one qubit is lost, so the backend is handed a gate that acts
where the gate of the circuit, which asks for both states of the qubit at once, never acts. -/
theorem not_emit_hands_renamed :
    let c : Circuit Float := (blank Config.default).insertQubits 2 "q"
    let controls : Controls := .ofList [⟨0, .positive⟩, ⟨0, .negative⟩]
    let g : Gate Float := ⟨.x, controls, [1], []⟩
    let next := c.emit .x [] controls [1]
    let handed := (Network.write (Backend.recorder none) [] next.circuit).1.backend
    next.answer = .ok () ∧ next.circuit.ops = [.standard g] ∧
      handed = [.standard ⟨.x, .ofList [⟨0, .negative⟩], [1], []⟩] ∧
      handed ≠ [.standard (remapGate g.rank g)] := by
  refine ⟨rfl, rfl, rfl, fun same => ?_⟩
  have controls := congrArg (List.map fun op => op.controls.size) same
  exact absurd controls (by decide)

end Circuit

end QuantumCircuit
