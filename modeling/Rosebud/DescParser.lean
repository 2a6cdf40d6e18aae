import Mathlib.Data.List.Basic

/-! # The core's descriptors in `rpu_intercon`

A descriptor of the core arrives as one beat, and those for the DRAM as two: the
descriptor and then the DRAM address, marked `out_desc_2nd`.  The parser sorts first
beats by their type into queues; of a DRAM descriptor it keeps the first beat in
`out_desc_r` and pushes both when the second one arrives.  A descriptor for a DRAM
write gets the DRAM port as its destination, whatever the core wrote there.

Readiness of a DRAM queue is looked at with the first beat only.
-/
namespace Rosebud.DescParser

/-- The DRAM's port number. -/
structure Config where
  portWidth : Nat
  portWidth_le : portWidth ≤ 8
  dramPort : BitVec portWidth

variable {P : Config}

/-- The destination port of a descriptor, `[PORT_WIDTH+23:24]`. -/
def portOf (P : Config) (d : BitVec 64) : BitVec P.portWidth := d.extractLsb' 24 P.portWidth

/-- A descriptor with its destination replaced by the DRAM port. -/
def withDramPort (P : Config) (d : BitVec 64) : BitVec 64 :=
  (d.extractLsb' (24 + P.portWidth) (40 - P.portWidth) ++ P.dramPort ++
    d.extractLsb' 0 24).setWidth 64

theorem portOf_withDramPort (d : BitVec 64) : portOf P (withDramPort P d) = P.dramPort := by
  have hle := P.portWidth_le
  ext i hi
  have hsub : 24 + i - 24 = i := by omega
  simp only [portOf, withDramPort, BitVec.getElem_extractLsb', BitVec.getLsbD_setWidth,
    BitVec.getLsbD_append, hsub]
  have h1 : ¬ 24 + i < 24 := by omega
  have h2 : 24 + i < 64 := by omega
  simp [h1, h2, hi]

/-- One beat on the descriptor interface. -/
structure Beat where
  outDesc : BitVec 64
  outDesc2nd : Bool
  outDescValid : Bool

/-- Which of the four queues can take an entry. -/
structure Ready where
  coreDataWrReady : Bool
  coreCtrlWrReady : Bool
  coreDramWrReady : Bool
  coreDramRdReady : Bool

structure Regs where
  outDescR : BitVec 64
  coreDramWrR : Bool
  coreDramRdR : Bool
deriving Inhabited, Inhabited

section Wires
variable (P) (r : Regs) (b : Beat) (q : Ready)

def outDescType : BitVec 4 := b.outDesc.extractLsb' 60 4

def coreDataWr : Bool := decide (outDescType b = 0) && !b.outDesc2nd

def coreCtrlWr : Bool :=
  (decide (outDescType b = 1) || decide (outDescType b = 2) || decide (outDescType b = 3)) &&
    !b.outDesc2nd

def coreDramWr : Bool := decide (outDescType b = 4) && !b.outDesc2nd

def coreDramRd : Bool := decide (outDescType b = 5) && !b.outDesc2nd

def outDescReady : Bool :=
  (q.coreDataWrReady && coreDataWr b) || (q.coreCtrlWrReady && coreCtrlWr b) ||
    (q.coreDramWrReady && coreDramWr b) || (q.coreDramRdReady && coreDramRd b) ||
    b.outDesc2nd || decide (5 < outDescType b)

/-- A beat is taken. -/
def taken : Bool := b.outDescValid && outDescReady b q

/-- What the two DRAM queues are offered. -/
def dramDesc : BitVec 128 := b.outDesc ++ r.outDescR

/-- The registers after the clock edge, outside reset. -/
def next : Regs where
  outDescR :=
    if taken b q then if coreDramWr b then withDramPort P b.outDesc else b.outDesc
    else r.outDescR
  coreDramWrR := if taken b q then coreDramWr b else r.coreDramWrR
  coreDramRdR := if taken b q then coreDramRd b else r.coreDramRdR

end Wires

/-- Out of reset. -/
def Fresh (r : Regs) : Prop := r.coreDramWrR = false ∧ r.coreDramRdR = false

/-- A first beat of a DRAM write is kept with the DRAM port. -/
def PortKept (P : Config) (r : Regs) : Prop :=
  r.coreDramWrR = true → portOf P r.outDescR = P.dramPort

theorem PortKept.next {r : Regs} (h : PortKept P r) (b : Beat) (q : Ready) :
    PortKept P (next P r b q) := by
  intro hw
  cases ht : taken b q with
  | false =>
    simp only [DescParser.next, ht, Bool.false_eq_true, if_false] at hw ⊢
    exact h hw
  | true =>
    simp only [DescParser.next, ht, if_true] at hw ⊢
    rw [if_pos hw]
    exact portOf_withDramPort b.outDesc

/-- The descriptor in an entry of a DRAM queue. -/
def descOf (d : BitVec 128) : BitVec 64 := d.extractLsb' 0 64

theorem descOf_append (high low : BitVec 64) : descOf (high ++ low) = low := by
  ext i hi
  have happ : (high ++ low).getLsbD i = low.getLsbD i := by
    rw [BitVec.getLsbD_append, if_pos hi]
  rw [descOf, BitVec.getElem_extractLsb', Nat.zero_add, ← BitVec.getLsbD_eq_getElem]
  exact happ

end Rosebud.DescParser
