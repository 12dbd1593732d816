import QuantumCircuit.Json.Basic

/-!
# From JSON values to data

A decoder reads a value under a bound on the nesting that is left: entering an array or an object
takes one level.  What a decoder does not look at may be nested deeper.

A structure is written as an object.  Members with unknown names are ignored, and a known name
must not come twice.  An array of the values in the order of the names is read as well.  A choice
between names is written as a string, or as an object with the name as its one member.
-/

namespace QuantumCircuit.Json

/-- What reads a value, given how many levels of nesting are left. -/
abbrev Decoder (α : Type) := Nat → Json → Option α

/-- A string. -/
def asText : Decoder String
  | _, .string s => some s
  | _, _ => none

/-- A truth value. -/
def asBool : Decoder Bool
  | _, .bool b => some b
  | _, _ => none

/-- A natural number up to a limit, written with digits only. -/
def asNatural (limit : Nat) : Decoder Nat
  | _, .number ⟨false, n, [], none⟩ => if n ≤ limit then some n else none
  | _, _ => none

/-- A floating-point number, which has to be finite. -/
def asFloat [Library] : Decoder Float
  | _, .number n => if (Library.toFloat n).isFinite then some (Library.toFloat n) else none
  | _, _ => none

/-- A list. -/
def asList {α : Type} (item : Decoder α) : Decoder (List α)
  | n + 1, .array items => items.mapM (item n)
  | _, _ => none

/-- The value of a member. -/
def member? (members : List (String × Json)) (name : String) : Option Json :=
  members.lookup name

/-- Whether a name comes more than once. -/
def isRepeated (members : List (String × Json)) (name : String) : Bool :=
  1 < members.countP (·.1 == name)

/-- The values of the named fields of a structure, as far as they are there. -/
def fields? (names : List String) : Json → Option (List (Option Json))
  | .object members =>
      if names.any (isRepeated members) then none else some (names.map (member? members))
  | .array items =>
      if items.length ≤ names.length then
        some (items.map some ++ List.replicate (names.length - items.length) none)
      else none
  | _ => none

/-- A structure with given fields, which are read from their values. -/
def asRecord {α : Type} (names : List String) (fields : Nat → List (Option Json) → Option α) :
    Decoder α
  | n + 1, j => (fields? names j).bind (fields n)
  | 0, _ => none

/-- A choice with its content, written as an object with one member. -/
def choice? : Json → Option (String × Json)
  | .object [(name, content)] => some (name, content)
  | _ => none

/-- A name that stands for something. -/
def asName {α : Type} (ofName? : String → Option α) : Decoder α
  | _, .string s => ofName? s
  | _ + 1, .object [(s, .null)] => ofName? s
  | _, _ => none

/-- An object as a list of named values. -/
def asMembers {α : Type} (value : Decoder α) : Decoder (List (String × α))
  | n + 1, .object members => members.mapM fun m => (value n m.2).map fun v => (m.1, v)
  | _, _ => none

/-- A field that has to be there. -/
def required {α : Type} (d : Decoder α) (n : Nat) (field : Option Json) : Option α :=
  field.bind (d n)

/-- A field that has a default. -/
def optional {α : Type} (d : Decoder α) (fallback : α) (n : Nat) (field : Option Json) :
    Option α :=
  match field with
  | some j => d n j
  | none => some fallback

end QuantumCircuit.Json
