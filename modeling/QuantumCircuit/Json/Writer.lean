import QuantumCircuit.Json.Basic

/-!
# Writing JSON

A value is written as a list of tokens, and each token as characters, without blanks between them.
Nothing of a value is lost in its text.
-/

namespace QuantumCircuit.Json

/-- The pieces of which a JSON text consists. -/
inductive Token where
  /-- The brace that opens an object. -/
  | openBrace
  /-- The brace that closes an object. -/
  | closeBrace
  /-- The bracket that opens an array. -/
  | openBracket
  /-- The bracket that closes an array. -/
  | closeBracket
  /-- The colon between a name and its value. -/
  | colon
  /-- The comma between items or members. -/
  | comma
  /-- Nothing. -/
  | null
  /-- A truth value. -/
  | bool (value : Bool)
  /-- A number. -/
  | number (value : Numeral)
  /-- A string. -/
  | string (value : String)
  /-- A string with half of a pair in it. -/
  | unpaired
deriving DecidableEq

namespace Token

/-- The characters for a character in a string: quotes, backslashes and control characters are
escaped, all others stand for themselves. -/
def escape (c : Char) : List Char :=
  if c = '"' then ['\\', '"']
  else if c = '\\' then ['\\', '\\']
  else if c = '\n' then ['\\', 'n']
  else if c = '\r' then ['\\', 'r']
  else if c = '\t' then ['\\', 't']
  else if c = '\x08' then ['\\', 'b']
  else if c = '\x0c' then ['\\', 'f']
  else if c.toNat < 32 then
    ['\\', 'u', '0', '0', Nat.digitChar (c.toNat / 16), Nat.digitChar (c.toNat % 16)]
  else [c]

/-- The characters of a token. -/
def chars : Token → List Char
  | openBrace => ['\x7b']
  | closeBrace => ['\x7d']
  | openBracket => ['[']
  | closeBracket => [']']
  | colon => [':']
  | comma => [',']
  | null => ['n', 'u', 'l', 'l']
  | bool true => ['t', 'r', 'u', 'e']
  | bool false => ['f', 'a', 'l', 's', 'e']
  | number n => n.chars
  | string s => '"' :: (s.toList.flatMap escape ++ ['"'])
  | unpaired => ['"', '\\', 'u', 'd', '8', '0', '0', '"']

end Token

mutual

/-- The tokens of a value. -/
def tokens : Json → List Token
  | .null => [.null]
  | .bool b => [.bool b]
  | .number n => [.number n]
  | .string s => [.string s]
  | .array items => .openBracket :: ([.comma].intercalate (itemTokens items) ++ [.closeBracket])
  | .object members =>
      .openBrace :: ([.comma].intercalate (memberTokens members) ++ [.closeBrace])
  | .unpaired => [.unpaired]
termination_by structural j => j

/-- The tokens of each item. -/
def itemTokens : List Json → List (List Token)
  | [] => []
  | item :: items => item.tokens :: itemTokens items
termination_by structural items => items

/-- The tokens of each member. -/
def memberTokens : List (String × Json) → List (List Token)
  | [] => []
  | (name, value) :: members => (.string name :: .colon :: value.tokens) :: memberTokens members
termination_by structural members => members

end

/-- The text of a value, without blanks. -/
def compactText (j : Json) : String :=
  String.ofList (j.tokens.flatMap Token.chars)

end QuantumCircuit.Json
