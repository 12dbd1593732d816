import QuantumCircuit.Registers.Basic

/-!
# Adding and removing single indices

Registers follow the qubits of a circuit as they come and go.  `add` extends a register that the
new index touches, or else makes a register of its own for it.  `remove` shrinks a register, and
splits it into a low half `<name>_l` and a high half `<name>_h` if the index lies inside.
`consolidate` joins such halves again once they touch.
-/

namespace QuantumCircuit.Registers

/-! ## Fresh names -/

/-- A name with a numeric suffix. -/
def numbered (base : String) (n : Nat) : String :=
  base ++ "_" ++ toString n

/-- `base`, or else `base` with the least positive number that makes it free.  One more number than
there are registers is enough. -/
def freshName (regs : Registers) (base : String) : String :=
  if regs.contains base then
    let n := (List.range' 1 (regs.size + 1)).find? fun n => !regs.contains (numbered base n)
    numbered base (n.getD (regs.size + 2))
  else base

/-! ## Joining halves -/

/-- The name of which `name` is the low half: `name` without `_l`, unless nothing is left. -/
def lowBase? (name : String) : Option String :=
  match name.toList.reverse with
  | 'l' :: '_' :: c :: rest => some (String.ofList (c :: rest).reverse)
  | _ => none

/-- The name of the low half. -/
def lowName (base : String) : String :=
  base ++ "_l"

/-- The name of the high half. -/
def highName (base : String) : String :=
  base ++ "_h"

/-- The registers after joining the halves of `base`, if both are there, they touch, and `base`
itself is free. -/
def joinHalves? (regs : Registers) (base : String) : Option Registers :=
  match regs.find? (lowName base), regs.find? (highName base) with
  | some low, some high =>
      if low.stop = high.start ∧ regs.contains base = false then
        some <| ((regs.erase (lowName base)).erase (highName base)).insert base (low.join high)
      else none
  | _, _ => none

/-- Joins the first pair of halves in name order that can be joined. -/
def consolidateOnce? (regs : Registers) : Option Registers :=
  regs.keys.findSome? fun name => (lowBase? name).bind (joinHalves? regs)

/-- Joins pairs of halves, at most `n` of them. -/
def consolidateUpTo : Nat → Registers → Registers
  | 0, regs => regs
  | n + 1, regs =>
      match consolidateOnce? regs with
      | some next => consolidateUpTo n next
      | none => regs

/-- Joins pairs of halves until none can be joined.  Each time there is one register less, so the
number of registers bounds the number of times. -/
def consolidate (regs : Registers) : Registers :=
  consolidateUpTo regs.size regs

/-! ## Single indices -/

/-- The register that takes up an adjacent index, if it is adjacent. -/
def extend? (r : Register) (i : Nat) : Option Register :=
  if r.start = wrapIndex (i + 1) then some ((⟨i, 1⟩ : Register).join r)
  else if r.stop = i then some (r.join ⟨i, 1⟩)
  else none

/-- Adds an index.  The first register gets the given name.  After that the first register in name
order that ends before the index or starts after it is extended, and halves are joined; if there
is none, the index gets a register of its own, named after it. -/
def add (regs : Registers) (i : Nat) (name : String) : Registers :=
  if regs.isEmpty then regs.insert name ⟨i, 1⟩
  else
    match regs.entries.findSome? fun e => (extend? e.2 i).map fun r => (e.1, r) with
    | some (extended, r) => consolidate (regs.insert extended r)
    | none => regs.insert (freshName regs (numbered name i)) ⟨i, 1⟩

/-- Removes an index from the named register. -/
def remove (regs : Registers) (name : String) (i : Nat) : Except CircuitError Registers :=
  match regs.find? name with
  | none => .error (.registerNotFound name)
  | some r =>
      if !r.contains i then .error (.indexOutsideRegister name i r.start r.size)
      else if r.size = 1 then .ok (regs.erase name)
      else if i = r.start then .ok (regs.insert name ⟨r.start + 1, r.size - 1⟩)
      else if i = r.stop - 1 then .ok (regs.insert name ⟨r.start, r.size - 1⟩)
      else
        let rest := regs.erase name
        let withLow := rest.insert (freshName rest (lowName name)) ⟨r.start, i - r.start⟩
        .ok <| withLow.insert (freshName withLow (highName name)) ⟨i + 1, r.stop - i - 1⟩

end QuantumCircuit.Registers
