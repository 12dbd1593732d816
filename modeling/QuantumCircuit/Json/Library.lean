import QuantumCircuit.Json.Parser

/-!
# A library for JSON texts

The library that runs writes texts without blanks, and numbers with the fewest digits that read
back.  Where nothing is said of it, encoders and decoders are meant for any library.
-/

namespace QuantumCircuit.Json

/-- Texts without blanks, of which a decoder may enter 127 levels. -/
instance compactLibrary : Library where
  text := compactText
  parse? := readText?
  numeral? := NumberStyle.json.numeral?
  toFloat := Numeral.toFloat
  maxNesting := 127

end QuantumCircuit.Json
