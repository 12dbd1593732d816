import Mathlib.Tactic.FinCases
import QuantumCircuit.Json.Library
import QuantumCircuit.Proofs.Decimal.Numeral
import QuantumCircuit.Proofs.Json.Numbers

/-!
# JSON texts are read back

The text of a value is cut into the tokens that it was written with, and these make up the value
again.  A number ends where a comma, a closing bracket or brace, or nothing follows, and in the text
of a value nothing else follows a number.
-/

namespace QuantumCircuit.Json

/-! ## Strings -/

theorem hexQuad?_control : ∀ n < 32,
    hexQuad? '0' '0' (Nat.digitChar (n / 16)) (Nat.digitChar (n % 16)) = some n := by
  decide

/-- The code of a character is no half of a pair. -/
theorem ofUnit_toNat {c : Char} (small : c.toNat < 32) : Piece.ofUnit c.toNat = .char c := by
  have noHalf : (isHighUnit c.toNat || isLowUnit c.toNat) = false := by
    rw [isHighUnit, isLowUnit, Bool.or_eq_false_iff, Bool.and_eq_false_iff, Bool.and_eq_false_iff]
    simp only [decide_eq_false_iff_not]
    omega
  rw [Piece.ofUnit, noHalf, Char.ofNat_toNat]
  rfl

/-- An escaped character is read back as one piece. -/
theorem readPieces?_escape (c : Char) (rest : List Char) :
    readPieces? (Token.escape c ++ rest) = (readPieces? rest).map (consPiece (.char c)) := by
  unfold Token.escape
  split_ifs with quote backslash newline ret tab back form control
  · rw [quote]
    rfl
  · rw [backslash]
    rfl
  · rw [newline]
    rfl
  · rw [ret]
    rfl
  · rw [tab]
    rfl
  · rw [back]
    rfl
  · rw [form]
    rfl
  · change readPieces? ('\\' :: 'u' :: '0' :: '0' :: _ :: _ :: rest) = _
    rw [readPieces?, hexQuad?_control c.toNat control]
    dsimp only
    rw [ofUnit_toNat control]
  · rw [List.singleton_append, readPieces?]
    · rw [if_neg (not_or.mpr ⟨backslash, control⟩)]
    · exact quote
    · exact fun _ _ _ _ _ first _ => backslash first
    · exact fun _ _ first _ => backslash first

/-- An escaped string is read back up to its closing quote. -/
theorem readPieces?_string (cs rest : List Char) :
    readPieces? (cs.flatMap Token.escape ++ '"' :: rest) = some (cs.map .char, rest) := by
  induction cs with
  | nil => rfl
  | cons c cs ih =>
      rw [List.flatMap_cons, List.append_assoc, readPieces?_escape, ih]
      rfl

theorem joinPieces?_map_char (cs : List Char) : joinPieces? (cs.map .char) = some cs := by
  induction cs with
  | nil => rfl
  | cons c cs ih =>
      rw [List.map_cons, joinPieces?, ih]
      rfl

/-! ## Tokens -/

theorem readToken?_digitChar (d : Fin 10) (cs : List Char) :
    readToken? (Numeral.digitChar d :: cs) =
      (readNumber? (Numeral.digitChar d :: cs)).map fun r => (.number r.1, r.2) := by
  fin_cases d <;> rfl

/-- A number starts like no other token. -/
theorem readToken?_number (n : Numeral) (cs : List Char) :
    readToken? (n.chars ++ cs) =
      (readNumber? (n.chars ++ cs)).map fun r => (.number r.1, r.2) := by
  obtain ⟨c, tail, written, rfl | ⟨d, rfl⟩⟩ := exists_chars_eq_cons n
  · rw [written]
    rfl
  · rw [written, List.cons_append, readToken?_digitChar]

/-- A token is read back as it is written; a number has to end where the text that follows
starts. -/
theorem readToken?_append (t : Token) {rest : List Char}
    (ends : ∀ n, t = .number n → EndsNumber rest) :
    readToken? (t.chars ++ rest) = some (t, rest) := by
  cases t with
  | bool b => cases b <;> rfl
  | number n =>
      rw [Token.chars, readToken?_number, readNumber?_append n (ends n rfl)]
      rfl
  | string s =>
      rw [Token.chars, List.cons_append, List.append_assoc, List.singleton_append, readToken?,
        readPieces?_string, Option.map_some, stringToken, joinPieces?_map_char]
      dsimp only
      rw [String.ofList_toList]
  | _ => rfl

theorem isBlank_digitChar : ∀ d : Fin 10, isBlank (Numeral.digitChar d) = false := by
  decide

/-- No token starts with a blank. -/
theorem exists_chars_eq (t : Token) : ∃ c cs, t.chars = c :: cs ∧ isBlank c = false := by
  cases t with
  | bool b => cases b <;> exact ⟨_, _, rfl, rfl⟩
  | number n =>
      obtain ⟨c, tail, written, rfl | ⟨d, rfl⟩⟩ := exists_chars_eq_cons n
      · exact ⟨_, _, written, rfl⟩
      · exact ⟨_, _, written, isBlank_digitChar d⟩
  | _ => exact ⟨_, _, rfl, rfl⟩

theorem intercalate_itemTokens (item next : Json) (items : List Json) :
    [Token.comma].intercalate (itemTokens (item :: next :: items)) =
      item.tokens ++ .comma :: [Token.comma].intercalate (itemTokens (next :: items)) := by
  rw [itemTokens, itemTokens, List.intercalate_cons_cons, List.append_assoc,
    List.singleton_append]

theorem intercalate_memberTokens (name : String) (value : Json) (next : String × Json)
    (members : List (String × Json)) :
    [Token.comma].intercalate (memberTokens ((name, value) :: next :: members)) =
      .string name :: .colon :: (value.tokens ++
        .comma :: [Token.comma].intercalate (memberTokens (next :: members))) := by
  rw [memberTokens, memberTokens, List.intercalate_cons_cons, List.append_assoc,
    List.singleton_append]
  rfl

/-- Whether a text is cut into some tokens. -/
def CutsInto (cs : List Char) (ts : List Token) : Prop :=
  ∀ n, cs.length ≤ n → tokenizeUpTo? n cs = some ts

theorem cutsInto_nil : CutsInto [] [] := by
  intro n _
  cases n <;> rfl

/-- A token in front of a text. -/
theorem CutsInto.cons {rest : List Char} {ts : List Token} (later : CutsInto rest ts) (t : Token)
    (ends : ∀ n, t = .number n → EndsNumber rest) : CutsInto (t.chars ++ rest) (t :: ts) := by
  obtain ⟨c, cs, written, noBlank⟩ := exists_chars_eq t
  intro n enough
  rw [written, List.cons_append, List.length_cons, List.length_append] at enough
  cases n with
  | zero => omega
  | succ n =>
      have read := readToken?_append t ends
      rw [written, List.cons_append] at read ⊢
      rw [tokenizeUpTo?, noBlank, if_neg Bool.false_ne_true, read]
      dsimp only
      rw [later n (by omega)]
      rfl

/-- What ends a number: nothing, or a comma, a closing bracket or a closing brace. -/
theorem endsNumber_nil : EndsNumber [] :=
  fun _ none => nomatch none

theorem endsNumber_comma (cs : List Char) : EndsNumber (Token.comma.chars ++ cs) := by
  intro c first
  obtain rfl : ',' = c := Option.some.inj first
  decide

theorem endsNumber_closeBracket (cs : List Char) :
    EndsNumber (Token.closeBracket.chars ++ cs) := by
  intro c first
  obtain rfl : ']' = c := Option.some.inj first
  decide

theorem endsNumber_closeBrace (cs : List Char) : EndsNumber (Token.closeBrace.chars ++ cs) := by
  intro c first
  obtain rfl : '\x7d' = c := Option.some.inj first
  decide

mutual

/-- The text of a value is cut into its tokens. -/
theorem cutsInto_tokens : ∀ (j : Json) {rest : List Char} {ts : List Token}, EndsNumber rest →
    CutsInto rest ts → CutsInto (j.tokens.flatMap Token.chars ++ rest) (j.tokens ++ ts)
  | .null, _, _, _, later => later.cons .null fun _ equal => nomatch equal
  | .bool b, _, _, _, later => by
      rw [tokens, List.flatMap_singleton]
      exact later.cons (.bool b) fun _ equal => nomatch equal
  | .number n, _, _, ends, later => by
      rw [tokens, List.flatMap_singleton]
      exact later.cons (.number n) fun _ _ => ends
  | .string s, _, _, _, later => by
      rw [tokens, List.flatMap_singleton]
      exact later.cons (.string s) fun _ equal => nomatch equal
  | .array items, rest, ts, _, later => by
      have closed := later.cons .closeBracket fun _ equal => nomatch equal
      have inner := cutsInto_itemTokens items (endsNumber_closeBracket rest) closed
      rw [tokens, List.flatMap_cons, List.flatMap_append, List.flatMap_singleton,
        List.append_assoc, List.append_assoc, List.cons_append, List.append_assoc]
      exact inner.cons .openBracket fun _ equal => nomatch equal
  | .object members, rest, ts, _, later => by
      have closed := later.cons .closeBrace fun _ equal => nomatch equal
      have inner := cutsInto_memberTokens members (endsNumber_closeBrace rest) closed
      rw [tokens, List.flatMap_cons, List.flatMap_append, List.flatMap_singleton,
        List.append_assoc, List.append_assoc, List.cons_append, List.append_assoc]
      exact inner.cons .openBrace fun _ equal => nomatch equal
  | .unpaired, _, _, _, later => later.cons .unpaired fun _ equal => nomatch equal

-- Commas stand between items and not after the last, so the cases are none, one, and more.
theorem cutsInto_itemTokens : ∀ (items : List Json) {rest : List Char} {ts : List Token},
    EndsNumber rest → CutsInto rest ts →
    CutsInto (([Token.comma].intercalate (itemTokens items)).flatMap Token.chars ++ rest)
      ([Token.comma].intercalate (itemTokens items) ++ ts)
  | [], _, _, _, later => later
  | [item], _, _, ends, later => by
      rw [itemTokens, itemTokens, List.intercalate_singleton]
      exact cutsInto_tokens item ends later
  | item :: next :: items, rest, ts, ends, later => by
      have others := cutsInto_itemTokens (next :: items) ends later
      have separated := others.cons .comma fun _ equal => nomatch equal
      have all := cutsInto_tokens item (endsNumber_comma _) separated
      rw [intercalate_itemTokens, List.flatMap_append, List.flatMap_cons, List.append_assoc,
        List.append_assoc, List.append_assoc, List.cons_append]
      exact all

theorem cutsInto_memberTokens : ∀ (members : List (String × Json)) {rest : List Char}
    {ts : List Token}, EndsNumber rest → CutsInto rest ts →
    CutsInto (([Token.comma].intercalate (memberTokens members)).flatMap Token.chars ++ rest)
      ([Token.comma].intercalate (memberTokens members) ++ ts)
  | [], _, _, _, later => later
  | [(name, value)], _, _, ends, later => by
      have content := cutsInto_tokens value ends later
      have separated := content.cons .colon fun _ equal => nomatch equal
      rw [memberTokens, memberTokens, List.intercalate_singleton, List.flatMap_cons,
        List.flatMap_cons, List.append_assoc, List.append_assoc]
      exact separated.cons (.string name) fun _ equal => nomatch equal
  | (name, value) :: next :: members, rest, ts, ends, later => by
      have others := cutsInto_memberTokens (next :: members) ends later
      have following := others.cons .comma fun _ equal => nomatch equal
      have content := cutsInto_tokens value (endsNumber_comma _) following
      have separated := content.cons .colon fun _ equal => nomatch equal
      have all := separated.cons (.string name) fun _ equal => nomatch equal
      rw [intercalate_memberTokens, List.flatMap_cons, List.flatMap_cons, List.flatMap_append,
        List.flatMap_cons]
      simp only [List.append_assoc, List.cons_append]
      exact all

end

/-! ## Values -/

/-- A value does not start with a closing bracket. -/
theorem exists_tokens_eq (j : Json) : ∃ t ts, j.tokens = t :: ts ∧ t ≠ .closeBracket := by
  cases j with
  | _ => exact ⟨_, _, rfl, nofun⟩

/-- Neither do some values one after the other. -/
theorem exists_intercalate_eq (item : Json) (items : List Json) : ∃ t ts,
    [Token.comma].intercalate (itemTokens (item :: items)) = t :: ts ∧ t ≠ .closeBracket := by
  obtain ⟨t, ts, written, opens⟩ := exists_tokens_eq item
  cases items with
  | nil =>
      rw [itemTokens, itemTokens, List.intercalate_singleton]
      exact ⟨t, ts, written, opens⟩
  | cons next items =>
      rw [intercalate_itemTokens, written]
      exact ⟨t, _, rfl, opens⟩

/-- A member whose name is a string. -/
def named (m : String × Json) : Option String × Json :=
  (some m.1, m.2)

/-- Members whose names are strings make up an object. -/
theorem ofMembers_named (members : List (String × Json)) :
    ofMembers (members.map named) = .object members := by
  have all : (members.map named).mapM (fun m => m.1.map fun name => (name, m.2)) =
      some members := by
    induction members with
    | nil => rfl
    | cons m members ih =>
        rw [List.map_cons, List.mapM_cons, ih]
        rfl
  rw [ofMembers, all]

mutual

/-- A value is put together from its tokens.  Its own tokens are enough for the steps that this
takes, whatever follows. -/
theorem readValue?_tokens : ∀ (j : Json) {n : Nat} (rest : List Token),
    2 * j.tokens.length ≤ n + 1 → readValue? n (j.tokens ++ rest) = some (j, rest)
  | .null, _ + 1, _, _ => rfl
  | .bool _, _ + 1, _, _ => rfl
  | .number _, _ + 1, _, _ => rfl
  | .string _, _ + 1, _, _ => rfl
  | .unpaired, _ + 1, _, _ => rfl
  | .array [], _ + 1, _, _ => rfl
  | .array (item :: items), n + 1, rest, enough => by
      -- The two brackets pay for the step to the items.
      rw [tokens, List.length_cons, List.length_append, List.length_singleton] at enough
      have inner := readItems?_tokens item items (n := n) rest (by omega)
      obtain ⟨t, ts, written, opens⟩ := exists_intercalate_eq item items
      rw [written, List.cons_append] at inner
      rw [tokens, written, List.cons_append, List.append_assoc, List.singleton_append,
        List.cons_append, readValue?, inner]
      · rfl
      · exact fun _ equal => opens (List.cons.inj equal).1
  | .object [], _ + 1, _, _ => rfl
  | .object ((name, value) :: members), n + 1, rest, enough => by
      rw [tokens, List.length_cons, List.length_append, List.length_singleton] at enough
      have inner := readMembers?_tokens name value members (n := n) rest (by omega)
      have written : ∃ ts, [Token.comma].intercalate (memberTokens ((name, value) :: members)) =
          .string name :: ts := by
        cases members with
        | nil => exact ⟨_, List.intercalate_singleton⟩
        | cons next members => exact ⟨_, intercalate_memberTokens name value next members⟩
      obtain ⟨ts, written⟩ := written
      rw [written, List.cons_append] at inner
      rw [tokens, written, List.cons_append, List.append_assoc, List.singleton_append,
        List.cons_append, readValue?, inner, Option.map_some, ofMembers_named]
      exact fun _ equal => nomatch equal
  | j, 0, _, enough => by
      obtain ⟨t, ts, written, -⟩ := exists_tokens_eq j
      rw [written, List.length_cons] at enough
      omega

theorem readItems?_tokens : ∀ (item : Json) (items : List Json) {n : Nat} (rest : List Token),
    2 * ([Token.comma].intercalate (itemTokens (item :: items))).length ≤ n →
    readItems? n ([Token.comma].intercalate (itemTokens (item :: items)) ++
      .closeBracket :: rest) = some (item :: items, rest)
  | item, items, 0, _, enough => by
      obtain ⟨t, ts, written, -⟩ := exists_intercalate_eq item items
      rw [written, List.length_cons] at enough
      omega
  | item, [], n + 1, rest, enough => by
      rw [itemTokens, itemTokens, List.intercalate_singleton] at enough ⊢
      rw [readItems?, readValue?_tokens item (.closeBracket :: rest) enough]
  | item, next :: items, n + 1, rest, enough => by
      rw [intercalate_itemTokens, List.length_append, List.length_cons] at enough
      have others := readItems?_tokens next items (n := n) rest (by omega)
      rw [intercalate_itemTokens, List.append_assoc, List.cons_append, readItems?,
        readValue?_tokens item (n := n) _ (by omega)]
      dsimp only
      rw [others]
      rfl

theorem readMembers?_tokens : ∀ (name : String) (value : Json) (members : List (String × Json))
    {n : Nat} (rest : List Token),
    2 * ([Token.comma].intercalate (memberTokens ((name, value) :: members))).length ≤ n →
    readMembers? n ([Token.comma].intercalate (memberTokens ((name, value) :: members)) ++
      .closeBrace :: rest) = some (((name, value) :: members).map named, rest)
  | name, value, [], 0, _, enough => by
      rw [memberTokens, memberTokens, List.intercalate_singleton, List.length_cons] at enough
      omega
  | name, value, next :: members, 0, _, enough => by
      rw [intercalate_memberTokens, List.length_cons] at enough
      omega
  | name, value, [], n + 1, rest, enough => by
      rw [memberTokens, memberTokens, List.intercalate_singleton] at enough ⊢
      rw [List.length_cons, List.length_cons] at enough
      rw [List.cons_append, List.cons_append, readMembers?, Token.name?,
        readValue?_tokens value (.closeBrace :: rest) (by omega)]
      rfl
  | name, value, (other, content) :: members, n + 1, rest, enough => by
      rw [intercalate_memberTokens, List.length_cons, List.length_cons, List.length_append,
        List.length_cons] at enough
      have others := readMembers?_tokens other content members (n := n) rest (by omega)
      rw [intercalate_memberTokens, List.cons_append, List.cons_append, List.append_assoc,
        List.cons_append, readMembers?, Token.name?, readValue?_tokens value (n := n) _ (by omega)]
      dsimp only
      rw [others]
      rfl

end

/-! ## The library that runs -/

/-- The text of a value is read back as the value. -/
theorem readText?_compactText (j : Json) : readText? j.compactText = some j := by
  have cut := cutsInto_tokens j endsNumber_nil cutsInto_nil
  rw [List.append_nil, List.append_nil] at cut
  have tokenized : tokenize? j.compactText = some j.tokens := by
    rw [tokenize?, compactText, String.toList_ofList]
    exact cut _ (Nat.le_refl _)
  have value := readValue?_tokens j (n := 2 * j.tokens.length + 1) [] (by omega)
  rw [List.append_nil] at value
  rw [readText?, tokenized]
  simp only [Option.bind_eq_bind, Option.bind_some, value]
  rfl

instance : LawfulLibrary where
  parse?_text := readText?_compactText
  toFloat_numeral? := NumberStyle.json.toFloat_numeral?

end QuantumCircuit.Json
