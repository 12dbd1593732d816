import Mathlib.Data.List.TakeWhile
import QuantumCircuit.Proofs.Tensor.Record

/-!
# Networks of gates

Blocks only group gates, so the export of operations is that of the list of their gates in program
order: `writeGates` is the export without blocks, and `writeAll_eq_writeGates` ties the two.  With
the backend that builds dense matrices, the records that are written show the gates one by one, up
to the first gate that does not fit.
-/

namespace QuantumCircuit

/-! ## The gates of an operation -/

namespace Operation

variable {S : Type}

mutual

/-- The gates of an operation in program order, without barriers. -/
def leafGates : Operation S → List (Gate S)
  | .standard g => if g.kind = .barrier then [] else [g]
  | .symbolic _ => []
  | .nonUnitary _ => []
  | .conditioned _ _ => []
  | .compound ops => leafGatesAll ops
termination_by structural op => op

/-- The gates of a list of operations in program order, without barriers. -/
def leafGatesAll : List (Operation S) → List (Gate S)
  | [] => []
  | op :: ops => op.leafGates ++ leafGatesAll ops
termination_by structural ops => ops

end

mutual

/-- Whether an operation consists of gates, barriers and measurements. -/
def isExportable : Operation S → Bool
  | .standard _ => true
  | .symbolic _ => false
  | .nonUnitary e => e.kind = .measure
  | .conditioned _ _ => false
  | .compound ops => allExportable ops
termination_by structural op => op

/-- Whether all operations of a list consist of gates, barriers and measurements. -/
def allExportable : List (Operation S) → Bool
  | [] => true
  | op :: ops => op.isExportable && allExportable ops
termination_by structural ops => ops

end

end Operation

namespace Tape

open Operation

/-! ## Blocks only group gates -/

section Blocks

variable {S σ : Type} (b : Backend S σ)

/-- Writes the records of a list of gates up to the first that fails. -/
def writeGates (t : Tape S σ) : List (Gate S) → Tape S σ × TensorResult Unit
  | [] => (t, .ok ())
  | g :: gates =>
      match writeGate b g t with
      | (t, .ok ()) => writeGates t gates
      | (t, .error e) => (t, .error e)

theorem writeGates_append (t : Tape S σ) (first second : List (Gate S)) :
    writeGates b t (first ++ second) =
      match writeGates b t first with
      | (t, .ok ()) => writeGates b t second
      | (t, .error e) => (t, .error e) := by
  induction first generalizing t with
  | nil => rfl
  | cons g gates ih =>
      rw [List.cons_append, writeGates, writeGates]
      rcases writeGate b g t with ⟨next, _ | _⟩
      · rfl
      · exact ih next

mutual

/-- The export of an operation is that of its gates. -/
theorem write_eq_writeGates : ∀ {op : Operation S}, op.isExportable = true → ∀ t : Tape S σ,
    write b t op = writeGates b t op.leafGates
  | .standard g, _, t => by
      rw [write, leafGates]
      split
      · rfl
      · rw [writeGates]
        rcases writeGate b g t with ⟨next, _ | _⟩ <;> rfl
  | .symbolic _, exportable, _ => by cases exportable
  | .nonUnitary _, exportable, _ => by
      rw [write, if_pos (of_decide_eq_true exportable)]
      rfl
  | .conditioned _ _, exportable, _ => by cases exportable
  | .compound _, exportable, t => writeAll_eq_writeGates exportable t

/-- The export of a list of operations is that of their gates. -/
theorem writeAll_eq_writeGates : ∀ {ops : List (Operation S)}, allExportable ops = true →
    ∀ t : Tape S σ, writeAll b t ops = writeGates b t (leafGatesAll ops)
  | [], _, _ => rfl
  | op :: ops, exportable, t => by
      rcases Bool.and_eq_true_iff.mp exportable with ⟨head, tail⟩
      rw [writeAll, leafGatesAll, writeGates_append, write_eq_writeGates head t]
      rcases writeGates b t op.leafGates with ⟨next, _ | _⟩
      · rfl
      · exact writeAll_eq_writeGates tail next

end

end Blocks

/-! ## Runs of the dense backend -/

@[simp]
theorem width_advance (legs : Counters) (qubits : List Nat) :
    (advance legs qubits).width = legs.width := by
  rw [advance]
  induction qubits generalizing legs with
  | nil => rfl
  | cons q rest ih => rw [List.foldl_cons, ih, Counters.increment, Counters.width_set]

variable {S : Type} [TrigScalar S]

/-- A list of gates leaves records that show, one by one, the gates before the first that does not
fit, and nothing fails if there is none. -/
theorem writeGates_dense {gates : List (Gate S)} (proper : ∀ g ∈ gates, g.Proper)
    (t : Tape S Unit) : ∃ added : List (Nat × TensorRecord S),
      (writeGates .dense t gates).1.written = t.written ++ added ∧
      added.map Prod.fst = List.range' t.ordinal added.length ∧
      List.Forall₂ (fun e g => e.2.Shows e.1 g) added
        (gates.takeWhile fun g => Fits t.legs.width g) ∧
      ((writeGates .dense t gates).2 = .ok () ↔ ∀ g ∈ gates, Fits t.legs.width g) := by
  induction gates generalizing t with
  | nil => exact ⟨[], (List.append_nil _).symm, rfl, .nil, by simp [writeGates]⟩
  | cons g gates ih =>
      rcases List.forall_mem_cons.mp proper with ⟨properHead, properTail⟩
      rw [writeGates]
      by_cases fits : Fits t.legs.width g
      · rcases writeGate_of_fits properHead fits with ⟨record, shows, step⟩
        obtain ⟨added, written, ordinals, shown, succeeds⟩ := ih properTail
          { t with
            legs := advance t.legs (roles g).keys
            ordinal := t.ordinal + 1
            written := t.written ++ [(t.ordinal, record)] }
        rw [width_advance] at shown succeeds
        refine ⟨(t.ordinal, record) :: added, ?_, ?_, ?_, ?_⟩
        · rw [step]
          exact written.trans (List.append_assoc _ _ _)
        · rw [List.map_cons, ordinals, List.length_cons, List.range'_succ]
        · rw [List.takeWhile_cons, if_pos (decide_eq_true fits)]
          exact .cons shows shown
        · rw [step, List.forall_mem_cons, and_iff_right fits]
          exact succeeds
      · rcases writeGate_of_not_fits properHead fits with ⟨next, e, step, written⟩
        refine ⟨[], ?_, rfl, ?_, ?_⟩
        · rw [step, List.append_nil]
          exact written
        · rw [List.takeWhile_cons, decide_eq_false fits]
          exact .nil
        · rw [step]
          constructor
          · intro succeeds
            cases succeeds
          · intro all
            exact absurd (all g List.mem_cons_self) fits

end Tape

/-! ## Networks -/

namespace Network

variable {S : Type} [TrigScalar S]

/-- The records of a network show the gates of the circuit one by one in program order.  The export
fails only if some gate does not fit. -/
theorem write_dense_shows {c : Circuit S} (exportable : Operation.allExportable c.ops = true)
    (proper : ∀ g ∈ Operation.leafGatesAll c.ops, g.Proper) :
    ((write .dense () c).2 = .ok () ↔
      ∀ g ∈ Operation.leafGatesAll c.ops, Tape.Fits (width c) g) ∧
    ((write .dense () c).2 = .ok () →
      (write .dense () c).1.written.map Prod.fst =
        List.range (Operation.leafGatesAll c.ops).length ∧
      List.Forall₂ (fun e g => e.2.Shows e.1 g) (write .dense () c).1.written
        (Operation.leafGatesAll c.ops)) := by
  obtain ⟨added, written, ordinals, shown, succeeds⟩ :=
    Tape.writeGates_dense proper ⟨.zero (width c), 0, (), []⟩
  rw [← Tape.writeAll_eq_writeGates .dense exportable] at written succeeds
  refine ⟨succeeds, fun success => ?_⟩
  have all : (Operation.leafGatesAll c.ops).takeWhile
      (fun g => Tape.Fits (width c) g) = Operation.leafGatesAll c.ops :=
    List.takeWhile_eq_self_iff.mpr fun g mem => decide_eq_true (succeeds.mp success g mem)
  change List.Forall₂ _ added ((Operation.leafGatesAll c.ops).takeWhile
    fun g => Tape.Fits (width c) g) at shown
  rw [all] at shown
  have entries : (write .dense () c).1.written = added := written
  rw [entries]
  refine ⟨?_, shown⟩
  rw [ordinals, ← shown.length_eq, List.range_eq_range']

/-- A controlled gate, and in a nested block a barrier and a gate on two targets. -/
theorem write_dense_shows_nested :
    let controlled : Gate Float := ⟨.x, .ofList [⟨2, .negative⟩], [0], []⟩
    let barrier : Gate Float := ⟨.barrier, .empty, [0, 1, 2], []⟩
    let double : Gate Float := ⟨.dcx, .empty, [0, 1], []⟩
    let c : Circuit Float := { (Circuit.blank Config.default).insertQubits 3 "q" with
      ops := [.standard controlled, .compound [.standard barrier, .compound [.standard double]]] }
    (write .dense () c).2 = .ok () ∧
      List.Forall₂ (fun e g => e.2.Shows e.1 g) (write .dense () c).1.written
        [controlled, double] := by
  intro controlled barrier double c
  have proper : ∀ g ∈ Operation.leafGatesAll c.ops, g.Proper := by decide
  have fits : ∀ g ∈ Operation.leafGatesAll c.ops, Tape.Fits (width c) g := by decide
  rcases write_dense_shows (c := c) rfl proper with ⟨succeeds, shown⟩
  exact ⟨succeeds.mpr fits, (shown (succeeds.mpr fits)).2⟩

end Network

end QuantumCircuit
