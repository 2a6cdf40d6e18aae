import Rosebud.Clocked
import Rosebud.SlotKeeper

/-! # What the count and the valid bit of `slot_keeper` say

A slot that comes back although it is free is counted once more, and the keeper raises the
count at which it takes itself to be empty (`last_valid_count`) with it.  With the number
of such returns since the last initialisation on the side, the three registers are tied to
the bitmap (`Law`), whatever the returns and pops are.

Two coincidences break the law.  The branch of `init_valid` is not the first of an
`if … else if`: a slot that comes or goes in the cycle of an initialisation changes the old
count, and the initial one is lost.  And if the last free slot is returned once more in the
cycle in which it is popped, the bitmap becomes empty and the valid bit stays.
`keeper_law_of_exclusive` is for the runs without the two, `keeper_law_fails` shows both.
-/
namespace Rosebud.SlotKeeper
open Clocked

variable {slotCount slotWidth : Nat}

/-! ## Runs of a keeper -/

/-- A keeper, and how many of the slots that came back since the last initialisation or
reset were free already. -/
structure Bench (slotCount slotWidth : Nat) where
  keeper : SlotKeeper slotCount slotWidth
  duplicates : Nat

namespace Bench
variable (b : Bench slotCount slotWidth) (i : Inputs slotWidth)

/-- A slot comes back that is free. -/
def duplicate : Bool := enque i && decide (i.slotIn.toNat ∈ b.keeper.free)

def step : Bench slotCount slotWidth where
  keeper := b.keeper.next i
  duplicates := if i.rst || i.initValid then 0 else b.duplicates + (b.duplicate i).toNat

/-- The keeper after a reset. -/
structure Start (b : Bench slotCount slotWidth) : Prop where
  occupied : b.keeper.occupied = 0
  lastValidCount : b.keeper.lastValidCount = 1
  slotCountR : b.keeper.slotCountR = 0
  validR : b.keeper.validR = false
  duplicates : b.duplicates = 0

/-- Slots are numbered from 0, for no slot, to `SLOT_COUNT`. -/
def Numbered (slotCount : Nat) (i : Inputs slotWidth) : Prop :=
  (i.slotInValid = true → i.slotIn.toNat ≤ slotCount) ∧
    (i.initValid = true → i.initSlots.toNat ≤ slotCount)
deriving Decidable

/-- In the cycle of an initialisation as many slots come as go, and the last free slot does
not come back in the cycle in which it is popped. -/
def Exclusive : Prop :=
  i.rst = false →
    (i.initValid = true → enque i = b.keeper.deque i) ∧
      (i.initValid = false → enque i = true → b.keeper.deque i = true →
        b.keeper.free ≠ {i.slotIn.toNat})
deriving Decidable

end Bench

/-! ## The law -/

/-- The registers beside the bitmap, as numbers. -/
structure Law (b : Bench slotCount slotWidth) : Prop where
  lastValidCount : b.keeper.lastValidCount = BitVec.ofNat _ (b.duplicates + 1)
  slotCountR : b.keeper.slotCountR = BitVec.ofNat _ (b.keeper.free.card + b.duplicates)
  validR : b.keeper.validR = true ↔ b.keeper.free.Nonempty

theorem Bench.Start.law {b : Bench slotCount slotWidth} (h : b.Start) : Law b := by
  have hfree : b.keeper.free = ∅ := by rw [free, h.occupied, slotsOf_zero]
  refine ⟨?_, ?_, ?_⟩
  · rw [h.lastValidCount, h.duplicates]
    rfl
  · rw [h.slotCountR, hfree, h.duplicates]
    rfl
  · simp [h.validR, hfree]

section Step
variable {b : Bench slotCount slotWidth} {i : Inputs slotWidth}

theorem slotIn_le (hi : Bench.Numbered slotCount i) (he : enque i = true) :
    i.slotIn.toNat ≤ slotCount :=
  hi.1 (Bool.and_eq_true_iff.mp he).1

/-- The circuit finds a duplicate at the bit of its slot. -/
theorem isOccupied_eq (hi : Bench.Numbered slotCount i) :
    (enque i && b.keeper.isOccupied i.slotIn) = b.duplicate i := by
  unfold Bench.duplicate
  cases he : enque i with
  | false => rfl
  | true =>
    have hin : 1 ≤ i.slotIn.toNat ∧ i.slotIn.toNat ≤ slotCount :=
      ⟨one_le_slotIn he, slotIn_le hi he⟩
    rw [Bool.true_and, Bool.true_and, Bool.eq_iff_iff, decide_eq_true_eq, free, mem_slotsOf]
    exact ⟨fun h => ⟨hin, h⟩, fun h => h.2⟩

theorem Law.selectedSlot_mem (h : Law b) (hw : slotCount < 2 ^ slotWidth)
    (hd : b.keeper.deque i = true) : b.keeper.selectedSlot.toNat ∈ b.keeper.free :=
  SlotKeeper.selectedSlot_mem hw (h.validR.mp (Bool.and_eq_true_iff.mp hd).1)

theorem Law.free_step (h : Law b) (hn : slotCount < 2 ^ 32) (hw : slotCount < 2 ^ slotWidth)
    (hi : Bench.Numbered slotCount i) : (b.step i).keeper.free = b.keeper.nextFree i :=
  free_next_eq hn (slotIn_le hi) hi.2 (h.selectedSlot_mem hw)

theorem Law.card_exchanged (h : Law b) (hw : slotCount < 2 ^ slotWidth) :
    (b.keeper.exchanged i).card + (b.keeper.deque i).toNat + (b.duplicate i).toNat =
      b.keeper.free.card + (enque i).toNat :=
  card_exchanged_add (h.selectedSlot_mem hw)

theorem Law.lastValidCount_step (h : Law b) (hi : Bench.Numbered slotCount i) :
    (b.step i).keeper.lastValidCount = BitVec.ofNat _ ((b.step i).duplicates + 1) := by
  simp only [Bench.step, SlotKeeper.next, isOccupied_eq hi]
  cases hz : i.rst || i.initValid with
  | true => rfl
  | false =>
    cases hdup : b.duplicate i with
    | false => exact h.lastValidCount
    | true =>
      simp only [Bool.false_eq_true, if_false, if_true, h.lastValidCount]
      exact (BitVec.ofNat_add (b.duplicates + 1) 1).symm

/-- The count without an initialisation: one more for a slot that comes, one less for one
that goes. -/
theorem slotCountR_next_eq {s : SlotKeeper slotCount slotWidth} (hr : i.rst = false)
    (hv : i.initValid = false) {n n' : Nat} (hs : s.slotCountR = BitVec.ofNat _ n)
    (hn : n' + (s.deque i).toNat = n + (enque i).toNat) :
    (s.next i).slotCountR = BitVec.ofNat _ n' := by
  simp only [SlotKeeper.next, hr, hv, hs, Bool.false_eq_true, if_false]
  cases he : enque i <;> cases hd : s.deque i <;>
    simp only [he, hd, Bool.toNat_true, Bool.toNat_false, Nat.add_zero] at hn <;>
    simp only [Bool.not_true, Bool.not_false, Bool.and_self, Bool.and_false, Bool.and_true,
      Bool.false_eq_true, if_true, if_false]
  · rw [hn]
  · rw [← hn, BitVec.ofNat_add]
    exact BitVec.add_sub_cancel _ _
  · rw [hn, BitVec.ofNat_add]
    rfl
  · have heq : n' = n := by omega
    rw [heq]

theorem Law.slotCountR_step (h : Law b) (hn : slotCount < 2 ^ 32)
    (hw : slotCount < 2 ^ slotWidth) (hi : Bench.Numbered slotCount i) (hx : b.Exclusive i) :
    (b.step i).keeper.slotCountR =
      BitVec.ofNat _ ((b.step i).keeper.free.card + (b.step i).duplicates) := by
  rw [h.free_step hn hw hi]
  cases hr : i.rst with
  | true => simp [Bench.step, SlotKeeper.next, nextFree, hr]
  | false =>
    cases hv : i.initValid with
    | true =>
      -- neither branch of the exchange is taken, so the initial count stays
      have hsame := (hx hr).1 hv
      have hup : (enque i && !b.keeper.deque i) = false := by
        rw [hsame, Bool.and_not_self]
      have hdown : (!enque i && b.keeper.deque i) = false := by
        rw [hsame, Bool.not_and_self]
      simp [Bench.step, SlotKeeper.next, nextFree, hr, hv, hup, hdown]
    | false =>
      have hcard := h.card_exchanged (i := i) hw
      have hdup : (b.step i).duplicates = b.duplicates + (b.duplicate i).toNat := by
        simp [Bench.step, hr, hv]
      have hfree : b.keeper.nextFree i = b.keeper.exchanged i := by simp [nextFree, hr, hv]
      rw [hdup, hfree]
      exact slotCountR_next_eq hr hv h.slotCountR (by omega)

/-- Only at the last free slot the count is `last_valid_count`, however often both have
overflowed. -/
theorem Law.slotCountR_eq_iff (h : Law b) (hw : slotCount < 2 ^ slotWidth) :
    b.keeper.slotCountR = b.keeper.lastValidCount ↔ b.keeper.free.card = 1 := by
  have hle : b.keeper.free.card ≤ slotCount := card_slotsOf_le _
  rw [h.slotCountR, h.lastValidCount, Nat.add_comm b.duplicates 1, BitVec.ofNat_add,
    BitVec.ofNat_add, BitVec.add_left_inj, ← BitVec.toNat_inj, BitVec.toNat_ofNat,
    BitVec.toNat_ofNat, Nat.mod_eq_of_lt (by omega), Nat.mod_eq_of_lt (by omega)]

theorem Law.validR_step (h : Law b) (hn : slotCount < 2 ^ 32)
    (hw : slotCount < 2 ^ slotWidth) (hi : Bench.Numbered slotCount i) (hx : b.Exclusive i) :
    (b.step i).keeper.validR = true ↔ (b.step i).keeper.free.Nonempty := by
  rw [h.free_step hn hw hi]
  change (b.keeper.next i).validR = true ↔ _
  cases hr : i.rst with
  | true => simp [SlotKeeper.next, nextFree, hr]
  | false =>
    cases hv : i.initValid with
    | true =>
      have hsame := (hx hr).1 hv
      have hne : i.initSlots ≠ 0 ↔ 1 ≤ i.initSlots.toNat := by
        rw [Nat.one_le_iff_ne_zero, ne_eq, ne_eq, ← BitVec.toNat_inj]
        rfl
      simpa [SlotKeeper.next, nextFree, hr, hv, hsame] using hne
    | false =>
      have hcard := h.card_exchanged (i := i) hw
      have hfree : b.keeper.nextFree i = b.keeper.exchanged i := by simp [nextFree, hr, hv]
      rw [hfree, ← Finset.card_pos]
      simp only [SlotKeeper.next, hr, hv, Bool.false_eq_true, if_false]
      cases he : enque i <;> cases hd : b.keeper.deque i
      · have hdup : b.duplicate i = false := by simp [Bench.duplicate, he]
        have hsame : (b.keeper.exchanged i).card = b.keeper.free.card := by
          simpa [he, hd, hdup] using hcard
        rw [hsame, Finset.card_pos]
        exact h.validR
      · have hdup : b.duplicate i = false := by simp [Bench.duplicate, he]
        have hless : (b.keeper.exchanged i).card + 1 = b.keeper.free.card := by
          simpa [he, hd, hdup] using hcard
        have hvalid : b.keeper.validR = true := (Bool.and_eq_true_iff.mp hd).1
        by_cases hone : b.keeper.free.card = 1
        · have heq := (h.slotCountR_eq_iff hw).mpr hone
          exact iff_of_false (by simp [heq]) (by omega)
        · have hneq := mt (h.slotCountR_eq_iff hw).mp hone
          exact iff_of_true (by simp [hneq, hvalid]) (by omega)
      · have hmem : i.slotIn.toNat ∈ b.keeper.exchanged i := by simp [exchanged, he, hd]
        simpa using ⟨_, hmem⟩
      · -- the slot popped is not the only one left
        have hvalid : b.keeper.validR = true := (Bool.and_eq_true_iff.mp hd).1
        have hkept := (hx hr).2 hv he hd
        have hsel := h.selectedSlot_mem hw hd
        refine iff_of_true hvalid (Finset.card_pos.mpr ?_)
        by_contra hempty
        rw [Finset.not_nonempty_iff_eq_empty] at hempty
        simp only [exchanged, he, hd, if_true] at hempty
        rcases Finset.erase_eq_empty_iff _ _ |>.mp hempty with hno | hone
        · exact Finset.insert_ne_empty _ _ hno
        · have hin : i.slotIn.toNat = b.keeper.selectedSlot.toNat := by
            have := Finset.mem_insert_self i.slotIn.toNat b.keeper.free
            rwa [hone, Finset.mem_singleton] at this
          refine hkept (Finset.eq_singleton_iff_unique_mem.mpr ⟨hin ▸ hsel, fun x hxf => ?_⟩)
          have := Finset.mem_insert_of_mem (b := i.slotIn.toNat) hxf
          rwa [hone, Finset.mem_singleton, ← hin] at this

theorem Law.step (h : Law b) (hn : slotCount < 2 ^ 32) (hw : slotCount < 2 ^ slotWidth)
    (hi : Bench.Numbered slotCount i) (hx : b.Exclusive i) : Law (b.step i) where
  lastValidCount := h.lastValidCount_step hi
  slotCountR := h.slotCountR_step hn hw hi hx
  validR := h.validR_step hn hw hi hx

end Step

theorem free_nonempty_iff {s : SlotKeeper slotCount slotWidth} :
    s.free.Nonempty ↔ s.occupied ≠ 0 := by
  constructor
  · rintro ⟨x, hx⟩ hz
    rw [free, hz, slotsOf_zero] at hx
    exact Finset.notMem_empty x hx
  · intro hne
    by_contra hempty
    rw [Finset.not_nonempty_iff_eq_empty] at hempty
    refine hne (BitVec.eq_of_getLsbD_eq fun j hj => ?_)
    have hnot : j + 1 ∉ s.free := by
      rw [hempty]
      exact Finset.notMem_empty _
    rw [free, mem_slotsOf, Nat.add_sub_cancel] at hnot
    rw [BitVec.ofNat_eq_ofNat, BitVec.getLsbD_zero]
    exact Bool.eq_false_iff.mpr fun hbit => hnot ⟨⟨by omega, hj⟩, hbit⟩

/-- **Count and valid bit of a keeper.**  In every run from reset without the two
coincidences, whatever else comes together in a cycle: the valid bit is high exactly if a
slot is free, the slot offered is then the lowest free one, the count is the number of free
slots and of duplicate returns since the last initialisation or reset, as long as it has
the bits for it, and an initialisation leaves exactly the slots it names. -/
theorem keeper_law_of_exclusive (hn : slotCount < 2 ^ 32) (hw : slotCount < 2 ^ slotWidth)
    {b₀ : Bench slotCount slotWidth} (hstart : b₀.Start) (cycles : List (Inputs slotWidth))
    (hm : Meets Bench.step (fun b i => Bench.Numbered slotCount i ∧ b.Exclusive i) b₀ cycles) :
    let b := run Bench.step b₀ cycles
    (b.keeper.slotOutValid = true ↔ b.keeper.occupied ≠ 0) ∧
      (b.keeper.slotOutValid = true → b.keeper.slotOut.toNat ∈ b.keeper.free ∧
        ∀ x ∈ b.keeper.free, b.keeper.slotOut.toNat ≤ x) ∧
      (b.keeper.free.card + b.duplicates < 2 ^ slotWidth →
        b.keeper.slotCountOut.toNat = b.keeper.free.card + b.duplicates) ∧
      ∀ i : Inputs slotWidth, Bench.Numbered slotCount i → i.rst = false → i.initValid = true →
        (b.step i).keeper.free = Finset.Icc 1 i.initSlots.toNat := by
  intro b
  have h : Law b := run_invariant (fun _ _ h hc => h.step hn hw hc.1 hc.2) hstart.law hm
  refine ⟨?_, fun hv => selectedSlot_spec hw (h.validR.mp hv), fun hfit => ?_, ?_⟩
  · rw [← free_nonempty_iff]
    exact h.validR
  · have hlt : b.keeper.free.card + b.duplicates < 2 ^ (slotWidth + 1) := by omega
    rw [slotCountOut, h.slotCountR, BitVec.toNat_setWidth, BitVec.toNat_ofNat,
      Nat.mod_eq_of_lt hlt, Nat.mod_eq_of_lt hfit]
  · intro i hi hr hv
    rw [h.free_step hn hw hi]
    simp [nextFree, hr, hv]

/-! ## Four slots -/

/-- A keeper of four slots after a reset. -/
def fourSlots : Bench 4 3 := ⟨⟨0, 0, 1, 0, false, false⟩, 0⟩

theorem fourSlots_start : fourSlots.Start := ⟨rfl, rfl, rfl, rfl, rfl⟩

/-- An initialisation, a slot coming back (0 for none) and a pop, each or not. -/
def asks (init : Option (BitVec 3)) (slotIn : BitVec 3) (pop : Bool) : Inputs 3 :=
  ⟨false, init.getD 0, init.isSome, slotIn, decide (slotIn ≠ 0), pop⟩

/-- Two slots, of which one is popped and the other returned once more. -/
theorem keeper_law_of_exclusive_duplicate :
    let b := run Bench.step fourSlots [asks (some 2) 0 false, asks none 0 true, asks none 2 false]
    b.duplicates = 1 ∧ b.keeper.slotCountOut.toNat = b.keeper.free.card + b.duplicates :=
  ⟨by decide +kernel,
    (keeper_law_of_exclusive (by decide) (by decide) fourSlots_start
      [asks (some 2) 0 false, asks none 0 true, asks none 2 false]
      (by decide +kernel)).2.2.1 (by decide +kernel)⟩

/-- **The two coincidences.**  A slot that comes back in the cycle of an initialisation
leaves the count at one where two slots are free; and the only free slot, popped and
returned once more in one cycle, leaves the valid bit high where none is free. -/
theorem keeper_law_fails :
    (let b := run Bench.step fourSlots [asks (some 2) 3 false];
      b.keeper.free = {1, 2} ∧ b.duplicates = 0 ∧ b.keeper.slotCountOut = 1) ∧
    (let b := run Bench.step fourSlots [asks (some 1) 0 false, asks none 1 true];
      b.keeper.occupied = 0 ∧ b.keeper.slotOutValid = true) := by
  decide +kernel

end Rosebud.SlotKeeper
