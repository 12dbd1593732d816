import Mathlib.Algebra.Order.ToIntervalMod
import QuantumCircuit.Circuit.Phase
import QuantumCircuit.Proofs.Circuit.Reachable
import QuantumCircuit.Proofs.Loops
import QuantumCircuit.Proofs.Rationals

/-!
# The global phase with exact numbers

If nothing is rounded, the loops that bring a phase back to one turn end from every phase, and they
end with the only number of that turn that differs from the phase by whole turns.  Taking the
remainder first changes how many rounds that takes, and not where it ends.  So the global phase is
determined by the sum of the angles that have been added.
-/

namespace QuantumCircuit

/-! ## Exact scalars -/

/-- Scalars that are read as numbers without rounding, with a whole turn `τ`: a scalar has a value
if it is finite, and the value of a result is the result for the values. -/
structure Scalar.ReadsExactly {S K : Type} [Scalar S] [Field K] [LinearOrder K] [FloorRing K]
    (value? : S → Option K) (τ : K) : Prop where
  /-- A whole turn is positive. -/
  turn_pos : 0 < τ
  /-- Scalars with a value are those that are finite. -/
  isFinite : ∀ x, Scalar.isFinite x = (value? x).isSome
  /-- Natural numbers. -/
  ofNat : ∀ n : Nat, value? (Scalar.ofNat n) = some (n : K)
  /-- Half a turn. -/
  pi : value? Scalar.pi = some (τ / 2)
  /-- Sums. -/
  add : ∀ {x y a b}, value? x = some a → value? y = some b → value? (x + y) = some (a + b)
  /-- Differences. -/
  sub : ∀ {x y a b}, value? x = some a → value? y = some b → value? (x - y) = some (a - b)
  /-- Products. -/
  mul : ∀ {x y a b}, value? x = some a → value? y = some b → value? (x * y) = some (a * b)
  /-- Absolute values. -/
  abs : ∀ {x a}, value? x = some a → value? (Scalar.abs x) = some |a|
  /-- Strict comparison. -/
  lt : ∀ {x y a b}, value? x = some a → value? y = some b → Scalar.lt x y = decide (a < b)
  /-- Comparison. -/
  le : ∀ {x y a b}, value? x = some a → value? y = some b → Scalar.le x y = decide (a ≤ b)
  /-- Remainders of a division by a positive number. -/
  floorRemainder : ∀ {x y a b}, value? x = some a → value? y = some b → 0 < b →
    value? (Scalar.floorRemainder x y) = some (a - b * ⌊a / b⌋)

namespace Circuit

variable {S K : Type} [Scalar S]

/-! ## The loops -/

/-- Whether both loops end, first the one that adds turns and then the one that subtracts turns,
after at most so many rounds each. -/
def StepsWithin (rounds : Nat) (start last : S) : Prop :=
  ∃ up ≤ rounds, ∃ down ≤ rounds, ∃ raised,
    EndsAfter (fun phase : S => Scalar.lt phase Scalar.zero) (· + Scalar.turn) up start raised ∧
    EndsAfter (fun phase : S => Scalar.le Scalar.turn phase) (· - Scalar.turn) down raised last

/-- Whether both loops end, after whatever number of rounds. -/
def StepsTo (start last : S) : Prop :=
  ∃ rounds, StepsWithin rounds start last

theorem StepsTo.unique {start last last' : S} (first : StepsTo start last)
    (second : StepsTo start last') : last = last' := by
  obtain ⟨_, _, _, _, _, raised, raises, lowers⟩ := first
  obtain ⟨_, _, _, _, _, raised', raises', lowers'⟩ := second
  obtain ⟨-, rfl⟩ := raises.unique raises'
  exact (lowers.unique lowers').2

/-- The phase from which the loops start: the remainder of a phase of many turns, and any other
phase itself. -/
def reducedPhase (phase : S) : S :=
  if Scalar.le (Scalar.ofNat manyTurns * Scalar.turn) (Scalar.abs phase) then
    Scalar.floorRemainder phase Scalar.turn
  else phase

/-- The phase that is stored is the one with which the loops end, if they take no more rounds than
there may be. -/
theorem normalizePhase_eq {phase last : S}
    (steps : StepsWithin manyTurns (reducedPhase phase) last) : normalizePhase phase = last := by
  obtain ⟨up, upTo, down, downTo, raised, raises, lowers⟩ := steps
  have raisedEq : raisePhase (manyTurns + 2) (reducedPhase phase) = raised :=
    raises.eq_of_bounded (fun _ => rfl) (fun _ _ => rfl) (Nat.le_add_right_of_le upTo)
  have loweredEq : lowerPhase (manyTurns + 2) raised = last :=
    lowers.eq_of_bounded (fun _ => rfl) (fun _ _ => rfl) (Nat.le_add_right_of_le downTo)
  rw [← loweredEq, ← raisedEq]
  rfl

variable [Field K] [LinearOrder K] [IsStrictOrderedRing K] [FloorRing K] {value? : S → Option K}
  {τ : K}

section Exact

variable (exact : Scalar.ReadsExactly value? τ)
include exact

omit [IsStrictOrderedRing K] in
theorem value?_zero : value? Scalar.zero = some 0 := by
  rw [Scalar.zero, exact.ofNat, Nat.cast_zero]

omit [IsStrictOrderedRing K] in
theorem value?_turn : value? Scalar.turn = some τ := by
  rw [Scalar.turn, exact.mul (exact.ofNat 2) exact.pi]
  congr 1
  push_cast
  ring

/-- From a phase that is at most so many turns below zero, the first loop ends after at most so many
rounds.  Unless it has nothing to do, it ends below one turn. -/
theorem exists_raises {start : S} {a : K} (reads : value? start = some a) {rounds : Nat}
    (near : -(rounds * τ) ≤ a) : ∃ up ≤ rounds, ∃ raised,
      EndsAfter (fun phase : S => Scalar.lt phase Scalar.zero) (· + Scalar.turn) up start raised ∧
      value? raised = some (a + up * τ) ∧ 0 ≤ a + up * τ ∧ (up = 0 ∨ a + up * τ < τ) := by
  have test := exact.lt reads (value?_zero exact)
  induction rounds generalizing start a with
  | zero =>
      have nonneg : 0 ≤ a := by simpa using near
      refine ⟨0, Nat.le_refl 0, start, .stop ?_, by simpa using reads, by simpa using nonneg,
        .inl rfl⟩
      rw [test, decide_eq_false (not_lt.mpr nonneg)]
  | succ rounds ih =>
      by_cases below : a < 0
      · have step := exact.add reads (value?_turn exact)
        rw [Nat.cast_succ] at near
        obtain ⟨up, upTo, raised, raises, value, nonneg, inTurn⟩ :=
          ih step (by linarith) (exact.lt step (value?_zero exact))
        have total : a + (up + 1 : Nat) * τ = a + τ + up * τ := by
          push_cast
          ring
        refine ⟨up + 1, Nat.succ_le_succ upTo, raised, .round ?_ raises, ?_, ?_, .inr ?_⟩
        · rw [test, decide_eq_true below]
        · rw [total, value]
        · rw [total]
          exact nonneg
        · rw [total]
          rcases inTurn with rfl | inTurn
          · rw [Nat.cast_zero, zero_mul, add_zero]
            linarith
          · exact inTurn
      · refine ⟨0, Nat.zero_le _, start, .stop ?_, by simpa using reads, by simpa using below,
          .inl rfl⟩
        rw [test, decide_eq_false below]

/-- From a phase of at most so many turns and a part of one, the second loop ends after at most so
many rounds. -/
theorem exists_lowers {start : S} {a : K} (reads : value? start = some a) (nonneg : 0 ≤ a)
    {rounds : Nat} (near : a < (rounds + 1) * τ) : ∃ down ≤ rounds, ∃ last,
      EndsAfter (fun phase : S => Scalar.le Scalar.turn phase) (· - Scalar.turn) down start last ∧
      value? last = some (a - down * τ) ∧ 0 ≤ a - down * τ ∧ a - down * τ < τ := by
  have test := exact.le (value?_turn exact) reads
  induction rounds generalizing start a with
  | zero =>
      have inTurn : a < τ := by simpa using near
      refine ⟨0, Nat.le_refl 0, start, .stop ?_, by simpa using reads, by simpa using nonneg,
        by simpa using inTurn⟩
      rw [test, decide_eq_false (not_le.mpr inTurn)]
  | succ rounds ih =>
      by_cases above : τ ≤ a
      · have step := exact.sub reads (value?_turn exact)
        rw [Nat.cast_succ] at near
        obtain ⟨down, downTo, last, lowers, value, bounds⟩ :=
          ih step (by linarith) (by linarith) (exact.le (value?_turn exact) step)
        have total : a - (down + 1 : Nat) * τ = a - τ - down * τ := by
          push_cast
          ring
        refine ⟨down + 1, Nat.succ_le_succ downTo, last, .round ?_ lowers, ?_, ?_⟩
        · rw [test, decide_eq_true above]
        · rw [total, value]
        · rw [total]
          exact bounds
      · refine ⟨0, Nat.zero_le _, start, .stop ?_, by simpa using reads, by simpa using nonneg,
          by simpa using above⟩
        rw [test, decide_eq_false above]

/-- From a phase of at most so many turns, in either direction, both loops end after at most so many
rounds, with the number of one turn from zero on that differs from the phase by whole turns. -/
theorem exists_stepsWithin {start : S} {a : K} (reads : value? start = some a) {rounds : Nat}
    (near : |a| ≤ rounds * τ) : ∃ last, StepsWithin rounds start last ∧
      value? last = some (toIcoMod exact.turn_pos 0 a) := by
  have positive := exact.turn_pos
  obtain ⟨low, high⟩ := abs_le.mp near
  obtain ⟨up, upTo, raised, raises, readsRaised, nonneg, inTurn⟩ := exists_raises exact reads low
  have raisedNear : a + up * τ < (rounds + 1) * τ := by
    have turns : 0 ≤ (rounds : K) * τ := by positivity
    rcases inTurn with rfl | inTurn
    · rw [Nat.cast_zero, zero_mul, add_zero]
      linarith
    · linarith
  obtain ⟨down, downTo, last, lowers, readsLast, bounds⟩ :=
    exists_lowers exact readsRaised nonneg raisedNear
  refine ⟨last, ⟨up, upTo, down, downTo, raised, raises, lowers⟩, ?_⟩
  rw [readsLast]
  congr 1
  refine ((toIcoMod_eq_iff exact.turn_pos).mpr ⟨?_, (down : ℤ) - up, ?_⟩).symm
  · rwa [zero_add]
  · rw [zsmul_eq_mul]
    push_cast
    ring

/-- From every phase both loops end, and they end with that number. -/
theorem stepsTo_spec {start : S} {a : K} (reads : value? start = some a) :
    (∃ last, StepsTo start last) ∧
      ∀ last, StepsTo start last → value? last = some (toIcoMod exact.turn_pos 0 a) := by
  obtain ⟨rounds, near⟩ := Archimedean.arch |a| exact.turn_pos
  rw [nsmul_eq_mul] at near
  obtain ⟨last, steps, value⟩ := exists_stepsWithin exact reads near
  refine ⟨⟨last, rounds, steps⟩, fun other otherSteps => ?_⟩
  rw [otherSteps.unique ⟨rounds, steps⟩, value]

/-! ## Remainders -/

/-- A remainder by one turn is a part of one turn, and differs from the phase by whole turns. -/
theorem value?_floorRemainder {phase : S} {a : K} (reads : value? phase = some a) :
    value? (Scalar.floorRemainder phase Scalar.turn) = some (toIcoMod exact.turn_pos 0 a) := by
  rw [exact.floorRemainder reads (value?_turn exact) exact.turn_pos, toIcoMod, toIcoDiv_eq_floor,
    sub_zero, zsmul_eq_mul, mul_comm]

/-- The loops start less than many turns away from zero, as many whole turns away from the phase as
it may be. -/
theorem exists_value?_reducedPhase {phase : S} {a : K} (reads : value? phase = some a) :
    ∃ b, value? (reducedPhase phase) = some b ∧ |b| ≤ manyTurns * τ ∧
      toIcoMod exact.turn_pos 0 b = toIcoMod exact.turn_pos 0 a := by
  have test : Scalar.le (Scalar.ofNat manyTurns * Scalar.turn) (Scalar.abs phase) =
      decide (manyTurns * τ ≤ |a|) :=
    exact.le (exact.mul (exact.ofNat manyTurns) (value?_turn exact)) (exact.abs reads)
  rw [reducedPhase, test]
  by_cases far : manyTurns * τ ≤ |a|
  · rw [decide_eq_true far, if_pos rfl]
    refine ⟨_, value?_floorRemainder exact reads, ?_, toIcoMod_toIcoMod _ _ _ _⟩
    have bounds := toIcoMod_mem_Ico' exact.turn_pos a
    have many : (1 : K) ≤ manyTurns := by exact_mod_cast (by decide : 1 ≤ manyTurns)
    rw [abs_of_nonneg bounds.1]
    exact bounds.2.le.trans (le_mul_of_one_le_left exact.turn_pos.le many)
  · rw [decide_eq_false far, if_neg Bool.false_ne_true]
    exact ⟨a, reads, (not_le.mp far).le, rfl⟩

/-- Both loops end from where they are started, after at most as many rounds as there may be, and
what is stored is where they end. -/
theorem normalizePhase_steps {phase : S} {a : K} (reads : value? phase = some a) :
    StepsWithin manyTurns (reducedPhase phase) (normalizePhase phase) ∧
      value? (normalizePhase phase) = some (toIcoMod exact.turn_pos 0 a) := by
  obtain ⟨b, readsReduced, near, same⟩ := exists_value?_reducedPhase exact reads
  obtain ⟨last, steps, value⟩ := exists_stepsWithin exact readsReduced near
  rw [normalizePhase_eq steps, value, same]
  exact ⟨steps, rfl⟩

/-! ## Sums of angles -/

/-- An addition changes the sum of the angles by the angle, if it is finite. -/
theorem value?_addPhase {c : Circuit S} {sum : K}
    (reads : value? c.globalPhase = some (toIcoMod exact.turn_pos 0 sum)) (angle : S) :
    value? (c.addPhase angle).globalPhase =
      some (toIcoMod exact.turn_pos 0 (sum + (value? angle).getD 0)) := by
  rw [addPhase, exact.isFinite]
  cases readsAngle : value? angle with
  | none => simpa using reads
  | some a =>
      have turns : toIcoMod exact.turn_pos 0 sum + a =
          sum + a + -toIcoDiv exact.turn_pos 0 sum • τ := by
        rw [toIcoMod, neg_zsmul]
        abel
      rw [Option.isSome_some, if_pos rfl, Option.getD_some,
        (normalizePhase_steps exact (exact.add reads readsAngle)).2, turns, toIcoMod_add_zsmul]

/-- After any number of additions the global phase is determined by the sum of the finite angles. -/
theorem value?_foldl_addPhase {c : Circuit S} {sum : K}
    (reads : value? c.globalPhase = some (toIcoMod exact.turn_pos 0 sum)) (angles : List S) :
    value? (angles.foldl addPhase c).globalPhase =
      some (toIcoMod exact.turn_pos 0 (sum + (angles.filterMap value?).sum)) := by
  induction angles generalizing c sum with
  | nil => simpa using reads
  | cons angle rest ih =>
      rw [List.foldl_cons, ih (value?_addPhase exact reads angle)]
      cases readsAngle : value? angle with
      | none => rw [List.filterMap_cons_none readsAngle, Option.getD_none, add_zero]
      | some a =>
          rw [List.filterMap_cons_some readsAngle, List.sum_cons, Option.getD_some, add_assoc]

omit [IsStrictOrderedRing K] in
/-- The global phase of a new circuit is zero. -/
theorem value?_ofConfig? {config : Config} {c : Circuit S} (built : ofConfig? config = some c) :
    value? c.globalPhase = some 0 := by
  rcases ofConfig?_cases built with ⟨_, rfl | ⟨-, rfl⟩, rfl | rfl⟩
  all_goals exact value?_zero exact

end Exact

/-- With exact numbers, after any sequence of additions to a new circuit, and so after each of them,
the global phase is a number of one turn from zero on that differs by whole turns from the sum of
the angles that are finite, and the order of the additions does not matter.  An angle that is not
finite changes nothing.  For any other one both loops end, after at most `manyTurns` rounds each,
with the phase that is stored; they also end if they start from the unreduced phase or from its
remainder, and then always with the same value. -/
theorem addPhase_normalizes (exact : Scalar.ReadsExactly value? τ) {config : Config}
    {c : Circuit S} (built : ofConfig? config = some c) (angles : List S) :
    let last := angles.foldl addPhase c
    (∃ phase, value? last.globalPhase = some phase ∧ 0 ≤ phase ∧ phase < τ ∧
      ∃ turns : ℤ, (angles.filterMap value?).sum = phase + turns * τ) ∧
    (∀ reordered : List S, reordered.Perm angles →
      value? (reordered.foldl addPhase c).globalPhase = value? last.globalPhase) ∧
    ∀ angle, (Scalar.isFinite angle = false → last.addPhase angle = last) ∧
      (Scalar.isFinite angle = true →
        let phase := last.globalPhase + angle
        let next := (last.addPhase angle).globalPhase
        StepsWithin manyTurns (reducedPhase phase) next ∧
        ∀ start, start = phase ∨ start = Scalar.floorRemainder phase Scalar.turn →
          (∃ far, StepsTo start far) ∧ ∀ far, StepsTo start far → value? far = value? next) := by
  intro last
  have new : value? c.globalPhase = some (toIcoMod exact.turn_pos 0 0) := by
    rw [value?_ofConfig? exact built, toIcoMod_apply_left]
  have total : ∀ angles : List S, value? (angles.foldl addPhase c).globalPhase =
      some (toIcoMod exact.turn_pos 0 (angles.filterMap value?).sum) := fun angles => by
    rw [value?_foldl_addPhase exact new, zero_add]
  refine ⟨⟨_, total angles, ?_⟩, fun reordered perm => ?_, fun angle => ⟨fun infinite => ?_, ?_⟩⟩
  · obtain ⟨nonneg, inTurn⟩ := toIcoMod_mem_Ico' exact.turn_pos (angles.filterMap value?).sum
    refine ⟨nonneg, inTurn, toIcoDiv exact.turn_pos 0 (angles.filterMap value?).sum, ?_⟩
    rw [← zsmul_eq_mul, toIcoMod_add_toIcoDiv_zsmul]
  · rw [total, total, (perm.filterMap value?).sum_eq]
  · rw [addPhase, infinite, if_neg Bool.false_ne_true]
  · intro finite phase next
    obtain ⟨a, readsAngle⟩ := Option.isSome_iff_exists.mp ((exact.isFinite angle).symm.trans finite)
    have reads := exact.add (total angles) readsAngle
    have stored : next = normalizePhase phase := by
      change (last.addPhase angle).globalPhase = _
      rw [addPhase, finite, if_pos rfl]
    obtain ⟨steps, value⟩ := normalizePhase_steps exact reads
    rw [stored, value]
    refine ⟨steps, fun start among => ?_⟩
    rcases among with rfl | rfl
    · exact stepsTo_spec exact reads
    · have remainder := stepsTo_spec exact (value?_floorRemainder exact reads)
      rwa [toIcoMod_toIcoMod] at remainder

end Circuit

/-! ## Rational numbers and one more -/

/-- A rational number, or what stands for infinities and for what is not a number. -/
inductive ExactNumber where
  /-- A number. -/
  | number (x : ℚ)
  /-- A result that is not finite. -/
  | nonFinite
deriving DecidableEq

namespace ExactNumber

/-- The number, if it is one. -/
def value? : ExactNumber → Option ℚ
  | number x => some x
  | nonFinite => none

/-- An operation on numbers; no other operand gives a number. -/
def lift (f : ℚ → ℚ → ℚ) : ExactNumber → ExactNumber → ExactNumber
  | number x, number y => number (f x y)
  | _, _ => nonFinite

/-- A comparison of numbers; it fails for every other operand. -/
def compares (r : ℚ → ℚ → Bool) : ExactNumber → ExactNumber → Bool
  | number x, number y => r x y
  | _, _ => false

instance : Scalar ExactNumber where
  add := lift (· + ·)
  sub := lift (· - ·)
  mul := lift (· * ·)
  neg := lift (· - ·) (number 0)
  beq := compares (· == ·)
  ofNat n := number n
  pi := number Scalar.pi
  abs x := lift max x (lift (· - ·) (number 0) x)
  lt := compares Scalar.lt
  le := compares Scalar.le
  isFinite x := x.value?.isSome
  floorRemainder := lift Scalar.floorRemainder

theorem value?_eq_some_iff {x : ExactNumber} {a : ℚ} : x.value? = some a ↔ x = number a := by
  cases x <;> simp [value?]

/-- The turn is twice the number that stands for half of it. -/
theorem readsExactly : Scalar.ReadsExactly value? (2 * Scalar.pi : ℚ) where
  turn_pos := by decide +kernel
  isFinite _ := rfl
  ofNat _ := rfl
  pi := congrArg some (mul_div_cancel_left₀ _ two_ne_zero).symm
  add first second := by
    rw [value?_eq_some_iff.mp first, value?_eq_some_iff.mp second]
    rfl
  sub first second := by
    rw [value?_eq_some_iff.mp first, value?_eq_some_iff.mp second]
    rfl
  mul first second := by
    rw [value?_eq_some_iff.mp first, value?_eq_some_iff.mp second]
    rfl
  abs reads := by
    rw [value?_eq_some_iff.mp reads, abs_eq_max_neg, ← zero_sub]
    rfl
  lt first second := by
    rw [value?_eq_some_iff.mp first, value?_eq_some_iff.mp second]
    rfl
  le first second := by
    rw [value?_eq_some_iff.mp first, value?_eq_some_iff.mp second]
    rfl
  floorRemainder {_ _ a b} first second positive := by
    rw [value?_eq_some_iff.mp first, value?_eq_some_iff.mp second]
    change some (a - |b| * ⌊a / |b|⌋) = _
    rw [abs_of_pos positive]

end ExactNumber

namespace Circuit

open ExactNumber

/-- A negative angle, one that is not finite, one of many turns, and a small one, in either order. -/
theorem addPhase_normalizes_mixed :
    let angles : List ExactNumber := [number (-5), nonFinite, number 100000, number 3]
    let τ : ℚ := 2 * Scalar.pi
    ∃ c : Circuit ExactNumber, ofConfig? Config.default = some c ∧
      ∃ phase, value? (angles.foldl addPhase c).globalPhase = some phase ∧ 0 ≤ phase ∧
        phase < τ ∧ (∃ turns : ℤ, 99998 = phase + turns * τ) ∧
        value? (angles.reverse.foldl addPhase c).globalPhase = some phase := by
  intro angles τ
  have built : ofConfig? Config.default = some (new : Circuit ExactNumber) := rfl
  obtain ⟨⟨phase, reads, nonneg, inTurn, turns, sum⟩, order, -⟩ :=
    addPhase_normalizes readsExactly built angles
  have total : (angles.filterMap value?).sum = 99998 := by decide +kernel
  exact ⟨new, built, phase, reads, nonneg, inTurn, ⟨turns, total ▸ sum⟩,
    (order _ angles.reverse_perm).trans reads⟩

end Circuit

end QuantumCircuit
