/-!
# Loops that end

A loop takes a step as long as a test holds, and nothing bounds the number of its rounds.
`EndsAfter` says that it ends, after how many rounds, and with what, so that a function that bounds
its rounds in advance can be compared with it.
-/

namespace QuantumCircuit

/-- The runs of a loop that end: how many rounds they take, where they start, and where they end. -/
inductive EndsAfter {α : Type} (goesOn : α → Bool) (step : α → α) : Nat → α → α → Prop
  /-- The test fails at once. -/
  | stop {x : α} (stops : goesOn x = false) : EndsAfter goesOn step 0 x x
  /-- The test holds, and the loop goes on after a step. -/
  | round {x y : α} {n : Nat} (goes : goesOn x = true)
      (rest : EndsAfter goesOn step n (step x) y) : EndsAfter goesOn step (n + 1) x y

namespace EndsAfter

variable {α : Type} {goesOn : α → Bool} {step : α → α} {x y z : α} {m n : Nat}

/-- A loop ends in one way. -/
theorem unique (first : EndsAfter goesOn step m x y) (second : EndsAfter goesOn step n x z) :
    m = n ∧ y = z := by
  induction first generalizing n with
  | stop stops =>
      cases second with
      | stop _ => exact ⟨rfl, rfl⟩
      | round goes _ => exact absurd (stops.symm.trans goes) Bool.false_ne_true
  | round goes rest ih =>
      cases second with
      | stop stops => exact absurd (stops.symm.trans goes) Bool.false_ne_true
      | round _ rest' =>
          obtain ⟨rfl, rfl⟩ := ih rest'
          exact ⟨rfl, rfl⟩

/-- A loop that counts up ends at the first number at which its test fails. -/
theorem of_count {goesOn : Nat → Bool} {start : Nat}
    (goes : ∀ k, start ≤ k → k < start + n → goesOn k = true)
    (stops : goesOn (start + n) = false) : EndsAfter goesOn (· + 1) n start (start + n) := by
  induction n generalizing start with
  | zero => exact stop stops
  | succ n ih =>
      have next : start + (n + 1) = start + 1 + n := by omega
      rw [next] at goes stops ⊢
      refine round (goes start (Nat.le_refl _) (by omega)) (ih (fun k above below => ?_) stops)
      exact goes k (Nat.le_of_succ_le above) below

/-- A function that takes the steps of a loop, but at most so many, gives the end of the loop if it
may take as many as the loop has rounds. -/
theorem eq_of_bounded {loop : Nat → α → α} (zero : ∀ x, loop 0 x = x)
    (succ : ∀ n x, loop (n + 1) x = if goesOn x = true then loop n (step x) else x)
    (ends : EndsAfter goesOn step m x y) (enough : m ≤ n) : loop n x = y := by
  induction ends generalizing n with
  | stop stops =>
      cases n with
      | zero => exact zero _
      | succ n => rw [succ, stops, if_neg Bool.false_ne_true]
  | round goes rest ih =>
      cases n with
      | zero => exact absurd enough (Nat.not_succ_le_zero _)
      | succ n => rw [succ, goes, if_pos rfl, ih (Nat.le_of_succ_le_succ enough)]

end EndsAfter

end QuantumCircuit
