import QuantumCircuit.Json.Writer

/-!
# Reading JSON

A text is cut into tokens, with blanks between them skipped, and the tokens are put together to a
value.  Every function answers what it has read together with what is left.
-/

namespace QuantumCircuit.Json

/-! ## Numbers -/

/-- The value of a digit character. -/
def digit? (c : Char) : Option (Fin 10) :=
  if '0' ≤ c ∧ c ≤ '9' then some (Numeral.digit (c.toNat - '0'.toNat)) else none

/-- The digits at the start of a text, and what follows them. -/
def readDigits : List Char → List (Fin 10) × List Char
  | [] => ([], [])
  | c :: cs =>
      match digit? c with
      | some d =>
          let (ds, rest) := readDigits cs
          (d :: ds, rest)
      | none => ([], c :: cs)

/-- The number of a list of digits. -/
def digitsValue (ds : List (Fin 10)) : Nat :=
  ds.foldl (fun acc d => 10 * acc + d.val) 0

/-- Digits of which there has to be one. -/
def readSomeDigits? (cs : List Char) : Option (List (Fin 10) × List Char) :=
  match readDigits cs with
  | ([], _) => none
  | found => some found

/-- The digits before the point: without a zero in front, unless they are a single zero. -/
def readWhole? (cs : List Char) : Option (Nat × List Char) :=
  match readDigits cs with
  | ([], _) => none
  | ([d], rest) => some (d.val, rest)
  | (d :: ds, rest) => if d.val = 0 then none else some (digitsValue (d :: ds), rest)

/-- The digits after the point, if there is one. -/
def readFraction? (cs : List Char) : Option (List (Fin 10) × List Char) :=
  match cs with
  | '.' :: rest => readSomeDigits? rest
  | _ => some ([], cs)

/-- An exponent after its letter. -/
def readExponentValue? (cs : List Char) : Option (Option Int × List Char) :=
  match cs with
  | '-' :: rest => (readSomeDigits? rest).map fun r => (some (-(digitsValue r.1 : Int)), r.2)
  | '+' :: rest => (readSomeDigits? rest).map fun r => (some (digitsValue r.1 : Int), r.2)
  | rest => (readSomeDigits? rest).map fun r => (some (digitsValue r.1 : Int), r.2)

/-- The exponent, if there is one. -/
def readExponent? (cs : List Char) : Option (Option Int × List Char) :=
  match cs with
  | 'e' :: rest => readExponentValue? rest
  | 'E' :: rest => readExponentValue? rest
  | _ => some (none, cs)

/-- A number after its sign. -/
def readUnsigned? (negative : Bool) (cs : List Char) : Option (Numeral × List Char) := do
  let (whole, cs) ← readWhole? cs
  let (fraction, cs) ← readFraction? cs
  let (exponent, cs) ← readExponent? cs
  some (⟨negative, whole, fraction, exponent⟩, cs)

/-- A number. -/
def readNumber? (cs : List Char) : Option (Numeral × List Char) :=
  match cs with
  | '-' :: rest => readUnsigned? true rest
  | _ => readUnsigned? false cs

/-! ## Strings -/

/-- The value of a hexadecimal digit. -/
def hexDigit? (c : Char) : Option Nat :=
  if '0' ≤ c ∧ c ≤ '9' then some (c.toNat - '0'.toNat)
  else if 'a' ≤ c ∧ c ≤ 'f' then some (c.toNat - 'a'.toNat + 10)
  else if 'A' ≤ c ∧ c ≤ 'F' then some (c.toNat - 'A'.toNat + 10)
  else none

/-- The value of four hexadecimal digits. -/
def hexQuad? (a b c d : Char) : Option Nat := do
  let a ← hexDigit? a
  let b ← hexDigit? b
  let c ← hexDigit? c
  let d ← hexDigit? d
  some (((a * 16 + b) * 16 + c) * 16 + d)

/-- Whether a 16-bit unit is the first of a pair. -/
def isHighUnit (n : Nat) : Bool :=
  0xd800 ≤ n && n < 0xdc00

/-- Whether a 16-bit unit is the second of a pair. -/
def isLowUnit (n : Nat) : Bool :=
  0xdc00 ≤ n && n < 0xe000

/-- The character of a pair of 16-bit units. -/
def pairChar (high low : Nat) : Char :=
  Char.ofNat (0x10000 + (high - 0xd800) * 0x400 + (low - 0xdc00))

/-- The character of an escape of one letter. -/
def escaped? (c : Char) : Option Char :=
  match c with
  | '"' => some '"'
  | '\\' => some '\\'
  | '/' => some '/'
  | 'b' => some '\x08'
  | 'f' => some '\x0c'
  | 'n' => some '\n'
  | 'r' => some '\r'
  | 't' => some '\t'
  | _ => none

/-- What a string is written with. -/
inductive Piece where
  /-- A character, plain or escaped. -/
  | char (c : Char)
  /-- An escaped 16-bit unit that is half of a pair. -/
  | half (unit : Nat)

/-- The piece of an escaped 16-bit unit. -/
def Piece.ofUnit (n : Nat) : Piece :=
  if isHighUnit n || isLowUnit n then .half n else .char (Char.ofNat n)

/-- Puts a piece in front of a string that is read. -/
def consPiece (p : Piece) (r : List Piece × List Char) : List Piece × List Char :=
  (p :: r.1, r.2)

/-- The pieces of a string up to the closing quote.  Control characters have to be escaped. -/
def readPieces? : List Char → Option (List Piece × List Char)
  | [] => none
  | '"' :: rest => some ([], rest)
  | '\\' :: 'u' :: a :: b :: c :: d :: rest =>
      match hexQuad? a b c d with
      | some n => (readPieces? rest).map (consPiece (.ofUnit n))
      | none => none
  | '\\' :: e :: rest =>
      match escaped? e with
      | some c => (readPieces? rest).map (consPiece (.char c))
      | none => none
  | c :: rest =>
      if c = '\\' ∨ c.toNat < 32 then none else (readPieces? rest).map (consPiece (.char c))
termination_by structural cs => cs

/-- The characters of some pieces, if each half is the first or the second of two that are a
pair. -/
def joinPieces? : List Piece → Option (List Char)
  | [] => some []
  | .char c :: rest => (joinPieces? rest).map (c :: ·)
  | .half n :: .half m :: rest =>
      if isHighUnit n && isLowUnit m then (joinPieces? rest).map (pairChar n m :: ·) else none
  | .half _ :: _ => none

/-- The token of a string. -/
def stringToken (pieces : List Piece) : Token :=
  match joinPieces? pieces with
  | some cs => .string (String.ofList cs)
  | none => .unpaired

/-! ## Tokens -/

/-- Whether a character is skipped between tokens. -/
def isBlank (c : Char) : Bool :=
  c == ' ' || c == '\n' || c == '\r' || c == '\t'

/-- The token at the start of a text. -/
def readToken? : List Char → Option (Token × List Char)
  | '\x7b' :: rest => some (.openBrace, rest)
  | '\x7d' :: rest => some (.closeBrace, rest)
  | '[' :: rest => some (.openBracket, rest)
  | ']' :: rest => some (.closeBracket, rest)
  | ':' :: rest => some (.colon, rest)
  | ',' :: rest => some (.comma, rest)
  | 'n' :: 'u' :: 'l' :: 'l' :: rest => some (.null, rest)
  | 't' :: 'r' :: 'u' :: 'e' :: rest => some (.bool true, rest)
  | 'f' :: 'a' :: 'l' :: 's' :: 'e' :: rest => some (.bool false, rest)
  | '"' :: rest => (readPieces? rest).map fun r => (stringToken r.1, r.2)
  | cs => (readNumber? cs).map fun r => (.number r.1, r.2)

/-- The tokens of a text, if there are at most so many tokens and blanks. -/
def tokenizeUpTo? : Nat → List Char → Option (List Token)
  | _, [] => some []
  | 0, _ => none
  | n + 1, c :: cs =>
      if isBlank c then tokenizeUpTo? n cs
      else
        match readToken? (c :: cs) with
        | some (t, rest) => (tokenizeUpTo? n rest).map (t :: ·)
        | none => none

/-- The tokens of a text.  Each has at least one character. -/
def tokenize? (text : String) : Option (List Token) :=
  tokenizeUpTo? text.toList.length text.toList

/-! ## Values -/

/-- The name for which a token stands, or none in it if the name has half of a pair; nothing if the
token is no string. -/
def Token.name? : Token → Option (Option String)
  | .string name => some (some name)
  | .unpaired => some none
  | _ => none

/-- The value of some members. -/
def ofMembers (members : List (Option String × Json)) : Json :=
  match members.mapM fun m => m.1.map fun name => (name, m.2) with
  | some named => .object named
  | none => .unpaired

mutual

/-- A value at the start of some tokens, read in at most so many steps. -/
def readValue? : Nat → List Token → Option (Json × List Token)
  | 0, _ => none
  | _ + 1, .null :: rest => some (.null, rest)
  | _ + 1, .bool b :: rest => some (.bool b, rest)
  | _ + 1, .number n :: rest => some (.number n, rest)
  | _ + 1, .string s :: rest => some (.string s, rest)
  | _ + 1, .unpaired :: rest => some (.unpaired, rest)
  | _ + 1, .openBracket :: .closeBracket :: rest => some (.array [], rest)
  | n + 1, .openBracket :: rest => (readItems? n rest).map fun r => (.array r.1, r.2)
  | _ + 1, .openBrace :: .closeBrace :: rest => some (.object [], rest)
  | n + 1, .openBrace :: rest => (readMembers? n rest).map fun r => (ofMembers r.1, r.2)
  | _ + 1, _ => none
termination_by structural n => n

/-- The items of an array up to its end, of which there is at least one. -/
def readItems? : Nat → List Token → Option (List Json × List Token)
  | 0, _ => none
  | n + 1, ts =>
      match readValue? n ts with
      | some (item, .closeBracket :: rest) => some ([item], rest)
      | some (item, .comma :: rest) => (readItems? n rest).map fun r => (item :: r.1, r.2)
      | _ => none
termination_by structural n => n

/-- The members of an object up to its end, of which there is at least one. -/
def readMembers? : Nat → List Token → Option (List (Option String × Json) × List Token)
  | 0, _ => none
  | n + 1, t :: .colon :: ts =>
      match t.name?, readValue? n ts with
      | some name, some (value, .closeBrace :: rest) => some ([(name, value)], rest)
      | some name, some (value, .comma :: rest) =>
          (readMembers? n rest).map fun r => ((name, value) :: r.1, r.2)
      | _, _ => none
  | _ + 1, _ => none
termination_by structural n => n

end

/-- The value of a text.  Each step but those from an array to its first item takes a token. -/
def readText? (text : String) : Option Json := do
  let ts ← tokenize? text
  let (value, rest) ← readValue? (2 * ts.length + 1) ts
  if rest.isEmpty then some value else none

end QuantumCircuit.Json
