import QuantumCircuit.Circuit.Basic

/-!
# A circuit as a list of operations

Operations that come in through `push` and `insertAt` have their variables recorded.  Taking
operations out leaves the recorded variables as they are.
-/

namespace QuantumCircuit.Circuit

variable {S : Type}

/-- Records the variables of an operation. -/
def recordVariables [Scalar S] (c : Circuit S) (op : Operation S) : Circuit S :=
  { c with variableNames := op.variableNames.foldl SortedSet.insert c.variableNames }

/-- Appends an operation. -/
def push [Scalar S] (c : Circuit S) (op : Operation S) : Circuit S :=
  { c.recordVariables op with ops := c.ops ++ [op] }

/-- Appends the operations of a list. -/
def pushAll [Scalar S] (c : Circuit S) (ops : List (Operation S)) : Circuit S :=
  { ops.foldl recordVariables c with ops := c.ops ++ ops }

/-- Inserts an operation at a position up to the end. -/
def insertAt [Scalar S] (c : Circuit S) (i : Nat) (op : Operation S) : Outcome S Unit :=
  if i ≤ c.ops.length then { c.recordVariables op with ops := c.ops.insertIdx i op }.done ()
  else c.fault

/-- Takes out the operation at a position. -/
def removeAt (c : Circuit S) (i : Nat) : Outcome S (Operation S) :=
  match c.ops[i]? with
  | some op => { c with ops := c.ops.eraseIdx i }.done op
  | none => c.fault

/-- Takes out the last operation, if there is one. -/
def pop (c : Circuit S) : Outcome S (Option (Operation S)) :=
  { c with ops := c.ops.dropLast }.done c.ops.getLast?

/-- Takes out the operations from one position up to another, without that. -/
def drain (c : Circuit S) (start stop : Nat) : Outcome S (List (Operation S)) :=
  if start ≤ stop ∧ stop ≤ c.ops.length then
    { c with ops := c.ops.take start ++ c.ops.drop stop }.done ((c.ops.take stop).drop start)
  else c.fault

/-- Keeps the first operations only. -/
def truncate (c : Circuit S) (length : Nat) : Circuit S :=
  { c with ops := c.ops.take length }

/-- The most operations for which there can be room: the memory that can be addressed, divided by
the 88 bytes that an operation takes. -/
def maxRoom : Nat :=
  0x7ffffffffffffff8 / 88

/-- Makes room for more operations, which leaves the circuit as it is. -/
def reserve (c : Circuit S) (additional : Nat) : Outcome S Unit :=
  if c.ops.length + additional ≤ maxRoom then c.done () else c.fault

/-- Takes out all operations. -/
def clear (c : Circuit S) : Circuit S :=
  { c with ops := [] }

/-- Reverses the order of the operations and inverts none. -/
def reverse (c : Circuit S) : Circuit S :=
  { c with ops := c.ops.reverse }

/-- The operation at a position. -/
def getAt (c : Circuit S) (i : Nat) : Outcome S (Operation S) :=
  match c.ops[i]? with
  | some op => c.done op
  | none => c.fault

/-- Replaces the operation at a position; variables are not recorded. -/
def setAt (c : Circuit S) (i : Nat) (op : Operation S) : Circuit S :=
  { c with ops := c.ops.set i op }

end QuantumCircuit.Circuit
