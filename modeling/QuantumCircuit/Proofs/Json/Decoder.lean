import QuantumCircuit.Json.Decoder

/-!
# What decoders read

A decoder of some data reads the value of each datum as this datum wherever the nesting that is left
suffices for the value, and reads nothing where it does not.  The relation `Decodes` says so, and it
passes from the items of a list and the fields of a structure to the whole.
-/

namespace QuantumCircuit.Json

/-! ## Nesting -/

mutual

/-- How deep arrays and objects nest in a value. -/
def depth : Json → Nat
  | .array items => depthOfItems items + 1
  | .object members => depthOfMembers members + 1
  | _ => 0
termination_by structural j => j

/-- How deep arrays and objects nest in some items. -/
def depthOfItems : List Json → Nat
  | [] => 0
  | item :: items => max item.depth (depthOfItems items)
termination_by structural items => items

/-- How deep arrays and objects nest in the values of some members. -/
def depthOfMembers : List (String × Json) → Nat
  | [] => 0
  | (_, value) :: members => max value.depth (depthOfMembers members)
termination_by structural members => members

end

/-- Whether a decoder reads a value as a datum where the nesting that is left suffices, and nothing
where it does not. -/
def Decodes {α : Type} (d : Decoder α) (j : Json) (a : α) : Prop :=
  ∀ n, d n j = if j.depth ≤ n then some a else none

namespace Decodes

variable {α β : Type}

/-! ## Values without nesting -/

theorem asText (s : String) : Decodes Json.asText (.string s) s :=
  fun n => (if_pos (Nat.zero_le n)).symm

theorem asName {ofName? : String → Option α} {s : String} {a : α} (named : ofName? s = some a) :
    Decodes (Json.asName ofName?) (.string s) a := by
  intro n
  have fits : (Json.string s).depth ≤ n := Nat.zero_le n
  rw [if_pos fits, ← named]
  rfl

theorem asNatural {limit n : Nat} (small : n ≤ limit) :
    Decodes (Json.asNatural limit) (.ofNat n) n := by
  intro left
  have fits : (Json.ofNat n).depth ≤ left := Nat.zero_le left
  rw [if_pos fits]
  exact if_pos small

/-! ## Lists -/

theorem mapM_items {item : Decoder α} {encode : α → Json} {l : List α}
    (all : ∀ a ∈ l, Decodes item (encode a) a) (n : Nat) :
    (l.map encode).mapM (item n) =
      if depthOfItems (l.map encode) ≤ n then some l else none := by
  induction l with
  | nil => exact (if_pos (Nat.zero_le n)).symm
  | cons a l ih =>
      have first := all a List.mem_cons_self n
      have others := ih fun b mem => all b (List.mem_cons_of_mem a mem)
      rw [List.map_cons, List.mapM_cons, first, others, depthOfItems]
      by_cases fits : (encode a).depth ≤ n
      · by_cases rest : depthOfItems (l.map encode) ≤ n
        · rw [if_pos fits, if_pos rest, if_pos (Nat.max_le.mpr ⟨fits, rest⟩)]
          rfl
        · rw [if_pos fits, if_neg rest, if_neg fun both => rest (Nat.max_le.mp both).2]
          rfl
      · rw [if_neg fits, if_neg fun both => fits (Nat.max_le.mp both).1]
        rfl

theorem asList {item : Decoder α} {encode : α → Json} {l : List α}
    (all : ∀ a ∈ l, Decodes item (encode a) a) :
    Decodes (Json.asList item) (.ofList encode l) l := by
  intro n
  cases n with
  | zero => exact (if_neg (Nat.not_succ_le_zero _)).symm
  | succ n =>
      change (l.map encode).mapM (item n) = _
      rw [mapM_items all, ofList, depth]
      simp only [Nat.add_le_add_iff_right]

/-! ## Structures -/

/-- A field that is read, with what is done with its datum. -/
theorem bind_required {d : Decoder α} {j : Json} {a : α} (reads : Decodes d j a) (n : Nat)
    (next : α → Option β) :
    (required d n (some j)).bind next = if j.depth ≤ n then next a else none := by
  rw [required, Option.bind_some, reads n]
  split <;> rfl

/-- A structure is read if its fields are. -/
theorem asRecord {names : List String} {members : List (String × Json)}
    {values : List (Option Json)} {fields : Nat → List (Option Json) → Option α} {a : α}
    (found : fields? names (.object members) = some values)
    (read : ∀ n, fields n values = if depthOfMembers members ≤ n then some a else none) :
    Decodes (Json.asRecord names fields) (.object members) a := by
  intro n
  cases n with
  | zero => exact (if_neg (Nat.not_succ_le_zero _)).symm
  | succ n =>
      rw [Json.asRecord, found, Option.bind_some, read, depth]
      simp only [Nat.add_le_add_iff_right]

/-- A choice is read if its content is. -/
theorem choice {d : Decoder β} {inner : Decoder α} {tag : String} {content : Json} {a : α}
    (f : α → β) (deep : d 0 (.object [(tag, content)]) = none)
    (chosen : ∀ n, d (n + 1) (.object [(tag, content)]) = (inner n content).map f)
    (reads : Decodes inner content a) : Decodes d (.object [(tag, content)]) (f a) := by
  intro n
  cases n with
  | zero =>
      rw [deep]
      exact (if_neg (Nat.not_succ_le_zero _)).symm
  | succ n =>
      rw [chosen, reads n, depth]
      simp only [depthOfMembers, Nat.max_zero, Nat.add_le_add_iff_right]
      split <;> rfl

end Decodes

end QuantumCircuit.Json
