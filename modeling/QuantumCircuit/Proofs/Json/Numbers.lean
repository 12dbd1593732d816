import Mathlib.Data.Fintype.Basic
import QuantumCircuit.Json.Parser

/-!
# Written numbers are read back

A numeral that is written in front of other text is read back as it is, as long as the text that
follows cannot go on with the number.  A numeral keeps all of its digits, so nothing is lost, and
the digits of a natural number have no zero in front.
-/

namespace QuantumCircuit.Json

/-! ## Digits -/

theorem digit?_digitChar : ∀ d : Fin 10, digit? (Numeral.digitChar d) = some d := by
  decide

/-- Whether a text does not start with a digit. -/
def NoDigit (rest : List Char) : Prop :=
  ∀ c ∈ rest.head?, digit? c = none

/-- Digits are read up to where no more follow. -/
theorem readDigits_append (ds : List (Fin 10)) {rest : List Char} (ends : NoDigit rest) :
    readDigits (ds.map Numeral.digitChar ++ rest) = (ds, rest) := by
  induction ds with
  | nil =>
      cases rest with
      | nil => rfl
      | cons c rest =>
          rw [List.map_nil, List.nil_append, readDigits, ends c rfl]
  | cons d ds ih =>
      rw [List.map_cons, List.cons_append, readDigits, digit?_digitChar]
      dsimp only
      rw [ih]

theorem readSomeDigits?_append {ds : List (Fin 10)} (some : ds ≠ []) {rest : List Char}
    (ends : NoDigit rest) :
    readSomeDigits? (ds.map Numeral.digitChar ++ rest) = .some (ds, rest) := by
  rw [readSomeDigits?, readDigits_append ds ends]
  cases ds with
  | nil => contradiction
  | cons d ds => rfl

/-- A natural number is written with the digits of its value, without a zero in front of others. -/
theorem exists_toDigits_eq (n : Nat) : ∃ d ds,
    Nat.toDigits 10 n = (d :: ds).map Numeral.digitChar ∧ digitsValue (d :: ds) = n ∧
      (ds ≠ [] → d.val ≠ 0) := by
  induction n using Nat.strongRecOn with
  | ind n ih =>
      by_cases small : n < 10
      · refine ⟨⟨n, small⟩, [], Nat.toDigits_of_lt_base small, ?_, fun more => absurd rfl more⟩
        exact Nat.zero_add n
      · obtain ⟨d, ds, written, value, leading⟩ := ih (n / 10) (by omega)
        refine ⟨d, ds ++ [Numeral.digit n], ?_, ?_, fun _ => ?_⟩
        · rw [Nat.toDigits_of_base_le (by decide) (Nat.le_of_not_lt small), written,
            ← List.cons_append, List.map_append]
          rfl
        · rw [← List.cons_append, digitsValue, List.foldl_append]
          change 10 * digitsValue (d :: ds) + n % 10 = n
          rw [value]
          omega
        · cases ds with
          | nil =>
              have own : d.val = n / 10 := by
                rw [← value]
                exact (Nat.zero_add d.val).symm
              omega
          | cons e ds => exact leading (List.cons_ne_nil e ds)

/-! ## The parts of a number -/

theorem readWhole?_append (n : Nat) {rest : List Char} (ends : NoDigit rest) :
    readWhole? (Nat.toDigits 10 n ++ rest) = some (n, rest) := by
  obtain ⟨d, ds, written, value, leading⟩ := exists_toDigits_eq n
  rw [written, readWhole?, readDigits_append _ ends]
  cases ds with
  | nil =>
      have own : d.val = n := by
        rw [← value]
        exact (Nat.zero_add d.val).symm
      rw [← own]
  | cons e ds =>
      dsimp only
      rw [if_neg (leading (List.cons_ne_nil e ds)), value]

/-- Digits of a natural number that stand where some digits have to. -/
theorem readSomeDigits?_toDigits (n : Nat) {rest : List Char} (ends : NoDigit rest) :
    ∃ ds, readSomeDigits? (Nat.toDigits 10 n ++ rest) = some (ds, rest) ∧ digitsValue ds = n := by
  obtain ⟨d, ds, written, value, -⟩ := exists_toDigits_eq n
  refine ⟨d :: ds, ?_, value⟩
  rw [written]
  exact readSomeDigits?_append (List.cons_ne_nil d ds) ends

/-- Whether a number that stands in front of a text ends there. -/
def EndsNumber (rest : List Char) : Prop :=
  ∀ c ∈ rest.head?, digit? c = none ∧ c ≠ '.' ∧ c ≠ 'e' ∧ c ≠ 'E'

theorem EndsNumber.noDigit {rest : List Char} (ends : EndsNumber rest) : NoDigit rest :=
  fun c first => (ends c first).1

/-- The characters of a fraction. -/
def fractionChars : List (Fin 10) → List Char
  | [] => []
  | fraction => '.' :: fraction.map Numeral.digitChar

/-- The characters of an exponent. -/
def exponentChars : Option Int → List Char
  | none => []
  | some e => 'e' :: (if e < 0 then '-' else '+') :: Nat.toDigits 10 e.natAbs

theorem readExponent?_append (exponent : Option Int) {rest : List Char} (ends : EndsNumber rest) :
    readExponent? (exponentChars exponent ++ rest) = some (exponent, rest) := by
  cases exponent with
  | none =>
      cases rest with
      | nil => rfl
      | cons c rest =>
          obtain ⟨-, -, notLower, notUpper⟩ := ends c rfl
          rw [exponentChars, List.nil_append, readExponent?]
          · exact fun _ equal => notLower (List.cons.inj equal).1
          · exact fun _ equal => notUpper (List.cons.inj equal).1
  | some e =>
      obtain ⟨ds, digits, value⟩ := readSomeDigits?_toDigits e.natAbs ends.noDigit
      rw [exponentChars, List.cons_append, List.cons_append]
      by_cases negative : e < 0
      · rw [if_pos negative, readExponent?, readExponentValue?, digits, Option.map_some, value]
        congr 3
        omega
      · rw [if_neg negative, readExponent?, readExponentValue?, digits, Option.map_some, value]
        congr 3
        omega

/-- Where an exponent, or a number, is followed by what ends it, no digit follows. -/
theorem noDigit_exponentChars (exponent : Option Int) {rest : List Char}
    (ends : EndsNumber rest) : NoDigit (exponentChars exponent ++ rest) := by
  cases exponent with
  | none => exact ends.noDigit
  | some e =>
      intro c first
      obtain rfl : 'e' = c := Option.some.inj first
      rfl

theorem readFraction?_append (fraction : List (Fin 10)) (exponent : Option Int)
    {rest : List Char} (ends : EndsNumber rest) :
    readFraction? (fractionChars fraction ++ (exponentChars exponent ++ rest)) =
      some (fraction, exponentChars exponent ++ rest) := by
  cases fraction with
  | nil =>
      rw [fractionChars, List.nil_append]
      cases exponent with
      | none =>
          cases rest with
          | nil => rfl
          | cons c rest =>
              rw [exponentChars, List.nil_append, readFraction?]
              exact fun _ equal => (ends c rfl).2.1 (List.cons.inj equal).1
      | some e => rfl
  | cons d ds =>
      exact readSomeDigits?_append (List.cons_ne_nil d ds) (noDigit_exponentChars exponent ends)

/-! ## Numbers -/

/-- The characters of a number after its sign. -/
def unsignedChars (n : Numeral) : List Char :=
  Nat.toDigits 10 n.whole ++ (fractionChars n.fraction ++ exponentChars n.exponent)

theorem chars_eq (n : Numeral) :
    n.chars = (if n.negative then ['-'] else []) ++ unsignedChars n := by
  rw [Numeral.chars, unsignedChars, List.append_assoc, List.append_assoc]
  rfl

theorem noDigit_fractionChars (n : Numeral) {rest : List Char} (ends : EndsNumber rest) :
    NoDigit (fractionChars n.fraction ++ (exponentChars n.exponent ++ rest)) := by
  cases n.fraction with
  | nil => exact noDigit_exponentChars n.exponent ends
  | cons d ds =>
      intro c first
      obtain rfl : '.' = c := Option.some.inj first
      rfl

theorem readUnsigned?_append (n : Numeral) {rest : List Char} (ends : EndsNumber rest) :
    readUnsigned? n.negative (unsignedChars n ++ rest) = some (n, rest) := by
  have whole := readWhole?_append n.whole (noDigit_fractionChars n ends)
  have fraction := readFraction?_append n.fraction n.exponent ends
  have exponent := readExponent?_append n.exponent ends
  rw [readUnsigned?, unsignedChars, List.append_assoc, List.append_assoc, whole]
  simp only [Option.bind_eq_bind, Option.bind_some, fraction, exponent]

/-- The first character of a number is a minus sign or a digit. -/
theorem exists_chars_eq_cons (n : Numeral) :
    ∃ c cs, n.chars = c :: cs ∧ (c = '-' ∨ ∃ d, c = Numeral.digitChar d) := by
  rw [chars_eq]
  cases n.negative with
  | true => exact ⟨'-', unsignedChars n, rfl, .inl rfl⟩
  | false =>
      obtain ⟨d, ds, written, -⟩ := exists_toDigits_eq n.whole
      refine ⟨Numeral.digitChar d, ds.map Numeral.digitChar ++
        (fractionChars n.fraction ++ exponentChars n.exponent), ?_, .inr ⟨d, rfl⟩⟩
      rw [unsignedChars, written]
      rfl

theorem digitChar_ne_minus : ∀ d : Fin 10, Numeral.digitChar d ≠ '-' := by
  decide

/-- A number is read back as it is written, up to where another text starts. -/
theorem readNumber?_append (n : Numeral) {rest : List Char} (ends : EndsNumber rest) :
    readNumber? (n.chars ++ rest) = some (n, rest) := by
  have unsigned := readUnsigned?_append n ends
  rw [chars_eq]
  cases negative : n.negative with
  | true =>
      rw [negative] at unsigned
      exact unsigned
  | false =>
      rw [negative] at unsigned
      obtain ⟨d, ds, written, -⟩ := exists_toDigits_eq n.whole
      have first : unsignedChars n = Numeral.digitChar d :: (ds.map Numeral.digitChar ++
          (fractionChars n.fraction ++ exponentChars n.exponent)) := by
        rw [unsignedChars, written]
        rfl
      rw [if_neg Bool.false_ne_true, List.nil_append, ← unsigned, first, List.cons_append,
        readNumber?]
      exact fun _ equal => digitChar_ne_minus d (List.cons.inj equal).1

end QuantumCircuit.Json
