import Mathlib.Logic.Function.Basic

/-!
# Numbers and their digits

Names and lines of text that contain numbers can be told apart, because the digits of a number
determine it, and it is seen where they end.
-/

namespace QuantumCircuit

/-- Digits tell numbers apart. -/
theorem toDigits_injective : Function.Injective (Nat.toDigits 10) := by
  intro m n equal
  calc
    m = Nat.ofDigitChars 10 (Nat.toDigits 10 m) 0 := Nat.ofDigitChars_ten_toDigits.symm
    _ = Nat.ofDigitChars 10 (Nat.toDigits 10 n) 0 := by rw [equal]
    _ = n := Nat.ofDigitChars_ten_toDigits

/-- The digits of a number end where another character stands. -/
theorem digits_append_inj {m n : Nat} {stop : Char} {rest rest' : List Char}
    (other : stop.isDigit = false)
    (same : Nat.toDigits 10 m ++ stop :: rest = Nat.toDigits 10 n ++ stop :: rest') :
    m = n ∧ rest = rest' := by
  have digits : ∀ (n : Nat) (rest : List Char),
      (Nat.toDigits 10 n ++ stop :: rest).takeWhile Char.isDigit = Nat.toDigits 10 n := by
    intro n rest
    rw [List.takeWhile_append_of_pos fun c mem =>
      Nat.isDigit_of_mem_toDigits (by decide) (by decide) mem, List.takeWhile_cons_of_neg]
    · exact List.append_nil _
    · rw [other]
      exact Bool.false_ne_true
  have equal : Nat.toDigits 10 m = Nat.toDigits 10 n := by
    rw [← digits m rest, same, digits n rest']
  rw [equal] at same
  exact ⟨toDigits_injective equal, (List.cons.inj (List.append_cancel_left same)).2⟩

end QuantumCircuit
