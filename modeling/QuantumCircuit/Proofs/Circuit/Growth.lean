import Mathlib.Order.Interval.Finset.Nat
import QuantumCircuit.Proofs.Circuit.Gapless
import QuantumCircuit.Proofs.Circuit.Holders
import QuantumCircuit.Proofs.Registers.Disjoint

/-!
# Where registers grow

New qubits under a register name should come to physical indices that nothing else has, and one
register over all qubits should reach each of them.  Both are computed from the number of qubits,
as if no index was left out.  So they are right exactly if the indices from that number on are free,
and if the physical indices lie below it, as long as the register that is to reach them does not end
beyond the last index.  Compact circuits have both; others need not.
-/

namespace QuantumCircuit

open Registers SortedMap

namespace Circuit

variable {S : Type} {c : Circuit S}

/-! ## Registers -/

variable {regs others : Registers} {name : String} {start n : Nat}

/-- A register that is not blocked ends at the last qubit. -/
theorem stop_of_unblocked (unblocked : blocked regs name start = false) {r : Register}
    (found : regs.find? name = some r) : r.stop = start := by
  unfold blocked at unblocked
  rw [found] at unblocked
  simpa using unblocked

/-- So it does not reach beyond the last qubit. -/
theorem contains_of_unblocked (unblocked : blocked regs name start = false) {r : Register}
    (found : regs.find? name = some r) {p : Nat} (beyond : start ≤ p) : r.contains p = false := by
  have ends := stop_of_unblocked unblocked found
  rw [← Bool.not_eq_true, Register.contains, Bool.and_eq_true, decide_eq_true_eq,
    decide_eq_true_eq]
  omega

/-- Whether a register of the name, new at `start` or ending there, reaches over `n` more indices:
its new end is an index, and it is not one of those that end before they start. -/
def RoomFor (regs : Registers) (name : String) (start n : Nat) : Prop :=
  0 < n → start + n ≤ maxIndex ∧ ∀ r, regs.find? name = some r → r.start ≤ r.stop

/-- Where there is no register of the name, only the new end can wrap around. -/
theorem roomFor_of_absent (absent : regs.find? name = none) (small : start + n ≤ maxIndex) :
    RoomFor regs name start n :=
  fun _ => ⟨small, fun _ found => nomatch absent.symm.trans found⟩

/-- So it is where no end of before has wrapped around. -/
theorem roomFor_of_fit (fit : regs.Fit) (small : start + n ≤ maxIndex) :
    RoomFor regs name start n := by
  refine fun _ => ⟨small, fun r found => ?_⟩
  rw [(fit found).stop_eq]
  exact Nat.le_add_right _ _

/-- The register of the name ends after the new indices, or seems to. -/
theorem exists_find?_growRegister (unblocked : blocked regs name start = false) (n : Nat) :
    ∃ r, (growRegister regs name start n).find? name = some r ∧ r.stop = wrapIndex (start + n) ∧
      (r.start ≤ start ↔ ∀ old, regs.find? name = some old → old.start ≤ old.stop) := by
  unfold growRegister
  split
  · next old found =>
      have ends := stop_of_unblocked unblocked found
      refine ⟨_, by rw [find?_insert, if_pos rfl], ?_, ?_⟩
      · rw [← ends]
        unfold Register.stop wrapIndex
        rw [Nat.add_mod_mod, Nat.mod_add_mod, Nat.add_assoc]
      · rw [found, ← ends]
        exact ⟨fun le _ same => Option.some.inj same ▸ le, fun all => all old rfl⟩
  · next absent =>
      refine ⟨_, by rw [find?_insert, if_pos rfl], rfl, iff_of_true (Nat.le_refl _) ?_⟩
      rw [absent]
      exact fun _ found => nomatch found

/-- The register that grows reaches over the new indices exactly if there is room. -/
theorem covers_new_iff (unblocked : blocked regs name start = false) :
    (∀ p, start ≤ p ∧ p < start + n →
      ∃ r, (growRegister regs name start n).find? name = some r ∧ r.contains p = true) ↔
    RoomFor regs name start n := by
  obtain ⟨r, found, stop, start_le_iff⟩ := exists_find?_growRegister unblocked n
  have contains_iff : ∀ p, r.contains p = true ↔ r.start ≤ p ∧ p < wrapIndex (start + n) := by
    intro p
    rw [Register.contains, stop, Bool.and_eq_true, decide_eq_true_eq, decide_eq_true_eq]
  constructor
  · intro reaches pos
    obtain ⟨s, foundFirst, first⟩ := reaches start ⟨Nat.le_refl _, Nat.lt_add_of_pos_right pos⟩
    obtain ⟨t, foundLast, last⟩ := reaches (start + n - 1) (by omega)
    obtain rfl := Option.some.inj (foundFirst.symm.trans found)
    obtain rfl := Option.some.inj (foundLast.symm.trans found)
    have bound := wrapIndex_le (start + n)
    rw [contains_iff] at first last
    exact ⟨by omega, start_le_iff.mp first.1⟩
  · intro room p inRange
    obtain ⟨small, before⟩ := room (by omega)
    have first := start_le_iff.mpr before
    refine ⟨r, found, (contains_iff p).mpr ⟨first.trans inRange.1, ?_⟩⟩
    rw [wrapIndex_of_le small]
    exact inRange.2

/-- The other registers stay. -/
theorem find?_growRegister_of_ne {other : String} (differs : other ≠ name) (start n : Nat) :
    (growRegister regs name start n).find? other = regs.find? other := by
  unfold growRegister
  split <;> rw [find?_insert, if_neg differs]

/-! ## Additions -/

/-- New physical indices under a register name: they are the keys that are added to the layout, the
entries of before are kept, and the register is the only one that covers them. -/
structure Enlarged (before after : Layout) (grown others : Registers) (name : String)
    (new : Finset Nat) : Prop where
  /-- The indices are the keys that were not there before. -/
  mem_iff : ∀ p, p ∈ new ↔ after.contains p = true ∧ before.contains p = false
  /-- No entry of before is changed. -/
  kept : ∀ {p l}, before.find? p = some l → after.find? p = some l
  /-- The register covers the indices. -/
  own : ∀ p ∈ new, ∃ r, grown.find? name = some r ∧ r.contains p = true
  /-- No other register covers one of the indices. -/
  apart : ∀ p ∈ new,
    (∀ {other r}, grown.find? other = some r → r.contains p = true → other = name) ∧
      covers others p = false

/-- Adding nothing is right. -/
theorem enlarged_nothing (layout : Layout) (grown others : Registers) (name : String) :
    Enlarged layout layout grown others name ∅ where
  mem_iff p := by simp
  kept found := found
  own p new := absurd new (Finset.notMem_empty p)
  apart p new := absurd new (Finset.notMem_empty p)

/-- A range of indices that no qubit and no register has is a proper addition, if there is room. -/
theorem enlarged_extend {layout : Layout} (unblocked : blocked regs name start = false)
    (free : ∀ p, start ≤ p ∧ p < start + n →
      layout.contains p = false ∧ covers regs p = false ∧ covers others p = false)
    (room : RoomFor regs name start n) :
    Enlarged layout (extendLayout layout start n) (growRegister regs name start n) others name
      (Finset.Ico start (start + n)) where
  mem_iff p := by
    rw [Finset.mem_Ico, contains_extendLayout]
    constructor
    · exact fun inRange => ⟨.inl inRange, (free p inRange).1⟩
    · rintro ⟨inRange | old, fresh⟩
      · exact inRange
      · rw [fresh] at old
        contradiction
  kept {p l} found := by
    rw [find?_extendLayout]
    split
    · next inRange =>
        have missing := contains_eq_false_iff.mp (free p inRange).1
        rw [found] at missing
        contradiction
    · exact found
  own p inRange := (covers_new_iff unblocked).mpr room p (Finset.mem_Ico.mp inRange)
  apart p inRange := by
    obtain ⟨-, uncovered, outside⟩ := free p (Finset.mem_Ico.mp inRange)
    refine ⟨fun {other s} found reaches => ?_, outside⟩
    by_contra differs
    rw [find?_growRegister_of_ne differs] at found
    have covered := coverCount_ne_zero_iff.mpr ⟨other, s, found, reaches⟩
    exact covered (covers_eq_false_iff.mp uncovered)

/-- There are as many new keys as indices in the range, so that each of these is one. -/
theorem Enlarged.eq_Ico {layout : Layout} {grown : Registers} {new : Finset Nat}
    (enlarged : Enlarged layout (extendLayout layout start n) grown others name new)
    (card : new.card = n) : new = Finset.Ico start (start + n) := by
  have subset : new ⊆ Finset.Ico start (start + n) := by
    intro p isNew
    obtain ⟨held, fresh⟩ := (enlarged.mem_iff p).mp isNew
    rw [Finset.mem_Ico]
    rcases (contains_extendLayout layout start n p).mp held with inRange | old
    · exact inRange
    · rw [fresh] at old
      contradiction
  exact Finset.eq_of_subset_of_card_le subset (by rw [Nat.card_Ico, card]; omega)

/-- A range of indices is a proper addition exactly if no qubit and no register has one of them, and
there is room. -/
theorem enlarged_extend_iff {layout : Layout} (unblocked : blocked regs name start = false) :
    (∃ new : Finset Nat, new.card = n ∧ Enlarged layout (extendLayout layout start n)
      (growRegister regs name start n) others name new) ↔
    (∀ p, start ≤ p ∧ p < start + n →
      layout.contains p = false ∧ covers regs p = false ∧ covers others p = false) ∧
      RoomFor regs name start n := by
  constructor
  · rintro ⟨new, card, enlarged⟩
    have mem : ∀ p, start ≤ p ∧ p < start + n → p ∈ new :=
      fun p inRange => enlarged.eq_Ico card ▸ Finset.mem_Ico.mpr inRange
    refine ⟨fun p inRange => ?_,
      (covers_new_iff unblocked).mp fun p inRange => enlarged.own p (mem p inRange)⟩
    have isNew := mem p inRange
    obtain ⟨onlyOwn, outside⟩ := enlarged.apart p isNew
    refine ⟨((enlarged.mem_iff p).mp isNew).2, ?_, outside⟩
    by_contra covered
    obtain ⟨other, s, found, reaches⟩ :=
      coverCount_ne_zero_iff.mp (covers_iff.mp (Bool.eq_true_of_not_eq_false covered))
    by_cases same : other = name
    · subst same
      rw [contains_of_unblocked unblocked found inRange.1] at reaches
      contradiction
    · have kept : (growRegister regs name start n).find? other = regs.find? other :=
        find?_growRegister_of_ne same start n
      exact same (onlyOwn (kept.trans found) reaches)
  · rintro ⟨free, room⟩
    exact ⟨_, by rw [Nat.card_Ico]; omega, enlarged_extend unblocked free room⟩

/-- Whether the next `n` indices are free: no qubit is there, and no register covers one. -/
def FreeFor (c : Circuit S) (n : Nat) : Prop :=
  ∀ p, c.IsNext n p →
    c.initialLayout.contains p = false ∧ covers c.qregs p = false ∧ covers c.ancregs p = false

theorem freeFor_zero (c : Circuit S) : c.FreeFor 0 :=
  fun _ next => absurd next.2 (Nat.not_lt.mpr next.1)

theorem roomFor_zero (regs : Registers) (name : String) (start : Nat) :
    RoomFor regs name start 0 :=
  fun pos => absurd pos (Nat.lt_irrefl 0)

theorem enlarged_addQubitRegister_iff (added : (c.addQubitRegister n name).answer = .ok ()) :
    let next := (c.addQubitRegister n name).circuit
    (∃ new : Finset Nat, new.card = n ∧
      Enlarged c.initialLayout next.initialLayout next.qregs next.ancregs name new) ↔
    c.FreeFor n ∧ RoomFor c.qregs name c.numTotalQubits n := by
  rcases addQubitRegister_cases c n name with ⟨_, failed⟩ | ⟨rfl, same⟩ | ⟨unblocked, extended⟩
  · rw [failed] at added
    contradiction
  · rw [same]
    exact iff_of_true ⟨∅, rfl, enlarged_nothing _ _ _ _⟩ ⟨freeFor_zero c, roomFor_zero _ _ _⟩
  · rw [extended]
    exact enlarged_extend_iff unblocked

theorem enlarged_addAncillaryRegister_iff
    (added : (c.addAncillaryRegister n name).answer = .ok ()) :
    let next := (c.addAncillaryRegister n name).circuit
    (∃ new : Finset Nat, new.card = n ∧
      Enlarged c.initialLayout next.initialLayout next.ancregs next.qregs name new) ↔
    c.FreeFor n ∧ RoomFor c.ancregs name c.numTotalQubits n := by
  rcases addAncillaryRegister_cases c n name with
    ⟨_, failed⟩ | ⟨rfl, same⟩ | ⟨unblocked, extended⟩
  · rw [failed] at added
    contradiction
  · rw [same]
    exact iff_of_true ⟨∅, rfl, enlarged_nothing _ _ _ _⟩ ⟨freeFor_zero c, roomFor_zero _ _ _⟩
  · rw [extended]
    refine (enlarged_extend_iff unblocked).trans (and_congr_left fun _ => ?_)
    exact forall₂_congr fun p _ => and_congr_right fun _ => and_comm

/-! ## One register -/

/-- Whether every physical qubit lies in the only register there is, which has the name. -/
def Spanned (c : Circuit S) (name : String) : Prop :=
  ∀ p, c.initialLayout.contains p = true →
    ∃ r, c.qregs.entries = [(name, r)] ∧ c.ancregs.entries = [] ∧ r.contains p = true

theorem entries_unifyRegisters (c : Circuit S) (name : String) :
    (c.unifyRegisters name).qregs.entries =
      if 0 < c.numTotalQubits ∧ c.numTotalQubits ≤ maxIndex then
        [(name, ⟨0, c.numTotalQubits⟩)]
      else [] := by
  unfold unifyRegisters
  simp only [Bool.and_eq_true, decide_eq_true_eq, isSome_index?]
  split <;> rfl

/-- One register over all qubits reaches the indices below their number, if that is an index. -/
theorem spanned_unifyRegisters_iff (c : Circuit S) (name : String) :
    (c.unifyRegisters name).Spanned name ↔
      ∀ p, c.initialLayout.contains p = true →
        p < c.numTotalQubits ∧ c.numTotalQubits ≤ maxIndex := by
  refine forall₂_congr fun p _ => ?_
  rw [entries_unifyRegisters]
  constructor
  · rintro ⟨r, entries, -, reaches⟩
    split at entries
    · next total =>
        obtain rfl := (Prod.mk.inj (List.cons.inj entries).1).2
        have fits : (⟨0, c.numTotalQubits⟩ : Register).Fits := (Nat.zero_add _).trans_le total.2
        have inside := (fits.contains_iff.mp reaches).2
        exact ⟨by simpa using inside, total.2⟩
    · contradiction
  · rintro ⟨below, total⟩
    have fits : (⟨0, c.numTotalQubits⟩ : Register).Fits := (Nat.zero_add _).trans_le total
    refine ⟨_, if_pos ⟨Nat.zero_lt_of_lt below, total⟩, rfl, ?_⟩
    exact fits.contains_iff.mpr ⟨Nat.zero_le p, by simpa using below⟩

/-! ## Compact circuits -/

theorem Compact.freeFor (compact : c.Compact) (n : Nat) : c.FreeFor n := by
  intro p next
  obtain ⟨qregs, ancregs⟩ := compact.uncovered next.1
  refine ⟨?_, covers_eq_false_iff.mpr qregs, covers_eq_false_iff.mpr ancregs⟩
  rw [← Bool.not_eq_true, compact.layout.contains_iff]
  exact Nat.not_lt.mpr next.1

/-! ## When growth is right -/

/-- Qubits that are added under a register name are proper additions exactly if the next indices are
free and there is room for the register, and one register spans all qubits exactly if these lie
below their number.  All this holds of every circuit that is built in steps which leave no gaps, but
the last index without a qubit. -/
theorem growth_iff_free [Scalar S] (c : Circuit S) (n : Nat) (name : String) :
    let qubits := c.addQubitRegister n name
    let ancillae := c.addAncillaryRegister n name
    (qubits.answer = .ok () →
      ((∃ new : Finset Nat, new.card = n ∧ Enlarged c.initialLayout qubits.circuit.initialLayout
        qubits.circuit.qregs qubits.circuit.ancregs name new) ↔
        c.FreeFor n ∧ RoomFor c.qregs name c.numTotalQubits n)) ∧
    (ancillae.answer = .ok () →
      ((∃ new : Finset Nat, new.card = n ∧ Enlarged c.initialLayout ancillae.circuit.initialLayout
        ancillae.circuit.ancregs ancillae.circuit.qregs name new) ↔
        c.FreeFor n ∧ RoomFor c.ancregs name c.numTotalQubits n)) ∧
    ((c.unifyRegisters name).Spanned name ↔
      ∀ p, c.initialLayout.contains p = true →
        p < c.numTotalQubits ∧ c.numTotalQubits ≤ maxIndex) ∧
    (Reachable Step.Roomy c →
      c.FreeFor n ∧
      (c.numTotalQubits + n ≤ maxIndex → RoomFor c.qregs name c.numTotalQubits n ∧
        RoomFor c.ancregs name c.numTotalQubits n) ∧
      ∀ p, c.initialLayout.contains p = true →
        p < c.numTotalQubits ∧ c.numTotalQubits ≤ maxIndex) := by
  refine ⟨enlarged_addQubitRegister_iff, enlarged_addAncillaryRegister_iff,
    spanned_unifyRegisters_iff c name, fun reached => ?_⟩
  have compact := reached.compact
  refine ⟨compact.freeFor n, fun small => ?_, fun p held => ?_⟩
  · exact ⟨roomFor_of_fit compact.fit_qregs small, roomFor_of_fit compact.fit_ancregs small⟩
  · exact ⟨(compact.layout.contains_iff p).mp held, compact.total_le⟩

/-- With one qubit far off, two more come to the next two indices, as qubits or as ancillary ones,
but one register does not reach the far one.  After idle qubits are stripped and closed up, it
reaches the one that is measured. -/
theorem growth_iff_free_far :
    let new : Circuit Float := (blank Config.default).insertQubits 3 "q"
    let far := Step.run new (.addQubit 3 10 (some 3))
    let measured := Step.run new (.program [.nonUnitary (.ofMeasure [2] [0])] .empty Scalar.zero)
    let closed := Step.run measured (.stripIdle false true)
    let qubits := (far.addQubitRegister 2 "r").circuit
    let ancillae := (far.addAncillaryRegister 2 "r").circuit
    (∃ new : Finset Nat, new.card = 2 ∧ Enlarged far.initialLayout qubits.initialLayout
      qubits.qregs qubits.ancregs "r" new) ∧
    (∃ new : Finset Nat, new.card = 2 ∧ Enlarged far.initialLayout ancillae.initialLayout
      ancillae.ancregs ancillae.qregs "r" new) ∧
    ¬ (far.unifyRegisters "all").Spanned "all" ∧
    closed.initialLayout.entries = [(0, 0)] ∧ (closed.unifyRegisters "all").Spanned "all" := by
  intro new far measured closed qubits ancillae
  have free : far.FreeFor 2 := by
    intro p next
    have total : far.numTotalQubits = 4 := by decide +kernel
    have below : ∀ p < 6, 4 ≤ p → far.initialLayout.contains p = false ∧
        covers far.qregs p = false ∧ covers far.ancregs p = false := by decide +kernel
    rw [IsNext, total] at next
    exact below p next.2 next.1
  have room : far.numTotalQubits + 2 ≤ maxIndex := by decide +kernel
  have roomQ : RoomFor far.qregs "r" far.numTotalQubits 2 :=
    roomFor_of_absent (by decide +kernel) room
  have roomA : RoomFor far.ancregs "r" far.numTotalQubits 2 :=
    roomFor_of_absent (by decide +kernel) room
  have built : ofConfig? { Config.default with numQubits := 3 } = some new := rfl
  have before : Reachable Step.Roomy measured :=
    (Reachable.start built).step ⟨trivial, by decide +kernel⟩
  have reached : Reachable Step.Roomy closed := before.step ⟨rfl, by decide +kernel⟩
  have spanned := growth_iff_free closed 0 "all"
  refine ⟨((growth_iff_free far 2 "r").1 (by decide +kernel)).mpr ⟨free, roomQ⟩,
    ((growth_iff_free far 2 "r").2.1 (by decide +kernel)).mpr ⟨free, roomA⟩, ?_,
    by decide +kernel, spanned.2.2.1.mpr (spanned.2.2.2 reached).2.2⟩
  rw [(growth_iff_free far 2 "all").2.2.1]
  exact fun below => absurd (below 10 (by decide +kernel)).1 (by decide +kernel)

/-- After the first of three qubits is removed, the next index is that of the last one.  A new
register of one qubit adds no key and covers the same qubit, and one register over two qubits does
not reach it. -/
theorem not_enlarged_counted :
    let c := Step.run ((blank Config.default : Circuit Float).insertQubits 3 "q") (.removeQubit 0)
    let qubits := c.addQubitRegister 1 "r"
    qubits.answer = .ok () ∧ qubits.circuit.qregs.entries = [("q", ⟨1, 2⟩), ("r", ⟨2, 1⟩)] ∧
      (¬ ∃ new : Finset Nat, new.card = 1 ∧ Enlarged c.initialLayout
        qubits.circuit.initialLayout qubits.circuit.qregs qubits.circuit.ancregs "r" new) ∧
      ¬ (c.unifyRegisters "all").Spanned "all" := by
  intro c qubits
  have added : qubits.answer = .ok () := by decide +kernel
  have held : c.initialLayout.contains 2 = true := by decide +kernel
  refine ⟨added, by decide +kernel, ?_, ?_⟩
  · intro proper
    have free := ((enlarged_addQubitRegister_iff added).mp proper).1
    have unheld := (free 2 (by unfold IsNext; decide +kernel)).1
    rw [held] at unheld
    contradiction
  · rw [spanned_unifyRegisters_iff]
    exact fun below => absurd (below 2 held).1 (by decide +kernel)

end Circuit

end QuantumCircuit
