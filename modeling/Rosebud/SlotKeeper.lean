import Mathlib.Data.BitVec
import Mathlib.Data.Finset.Card
import Mathlib.Order.Interval.Finset.Nat
import Rosebud.Loops

/-! # `slot_keeper`

The free list of one core: a bitmap of its free slots, and next to it a count and a
valid bit that the load balancer looks at instead of the bitmap.  Slots are numbered
from 1; slot 0 stands for no slot.

`free` is the set the bitmap stands for.  `Counted` says that count and valid bit
agree with it, which is so as long as no slot comes back that is free already and no
initialisation finds slots in the list or names more of them than there are
(`Clean`).  `Counted.next` and `free_next` then describe a cycle.
-/
namespace Rosebud

/-- Bit `s - 1` of the bitmaps belongs to slot `s`. -/
structure SlotKeeper (slotCount slotWidth : Nat) where
  occupied : BitVec slotCount
  slotErr : BitVec slotCount
  lastValidCount : BitVec (slotWidth + 1)
  slotCountR : BitVec (slotWidth + 1)
  validR : Bool
  enqErrR : Bool
deriving Inhabited

namespace SlotKeeper
variable {slotCount slotWidth : Nat}

structure Inputs (slotWidth : Nat) where
  rst : Bool
  initSlots : BitVec slotWidth
  initValid : Bool
  slotIn : BitVec slotWidth
  slotInValid : Bool
  slotOutPop : Bool

/-! ## The module -/

/-- The bitmap with the bit of one slot. -/
def bitOf (slotCount : Nat) (slot : BitVec slotWidth) : BitVec slotCount :=
  BitVec.twoPow slotCount (slot.toNat - 1)

/-- The bitmap of the slots `1, …, init_slots`; the difference is one of 32 bits. -/
def initBits (slotCount : Nat) (initSlots : BitVec slotWidth) : BitVec slotCount :=
  BitVec.allOnes slotCount >>> (BitVec.ofNat 32 slotCount - initSlots.setWidth 32).toNat

section Module
variable (s : SlotKeeper slotCount slotWidth) (i : Inputs slotWidth)

def slotOutValid : Bool := s.validR

def enque : Bool := i.slotInValid && decide (i.slotIn ≠ 0)

def deque : Bool := s.slotOutValid && i.slotOutPop

/-- The loop that looks for the lowest free slot, from the highest down. -/
def selectedSlot : BitVec slotWidth :=
  (List.range slotCount).foldr
    (fun j slot => if s.occupied.getLsbD j then BitVec.ofNat slotWidth (j + 1) else slot) 1

def slotOut : BitVec slotWidth := s.selectedSlot

def slotCountOut : BitVec slotWidth := s.slotCountR.setWidth slotWidth

def isOccupied (slot : BitVec slotWidth) : Bool := s.occupied.getLsbD (slot.toNat - 1)

/-- The bitmap after `enque` and `deque`. -/
def nextOccupied : BitVec slotCount :=
  let stored := if enque i then s.occupied ||| bitOf slotCount i.slotIn else s.occupied
  if s.deque i then stored &&& ~~~ bitOf slotCount s.selectedSlot else stored

/-- The registers after the clock edge. -/
def next : SlotKeeper slotCount slotWidth where
  occupied :=
    if i.rst then 0 else if i.initValid then initBits slotCount i.initSlots else s.nextOccupied i
  slotErr :=
    if i.rst || i.initValid then 0
    else if enque i && s.isOccupied i.slotIn then s.slotErr ||| bitOf slotCount i.slotIn
    else s.slotErr
  lastValidCount :=
    if i.rst || i.initValid then 1
    else if enque i && s.isOccupied i.slotIn then s.lastValidCount + 1
    else s.lastValidCount
  slotCountR :=
    if i.rst then 0
    else if enque i && !s.deque i then s.slotCountR + 1
    else if !enque i && s.deque i then s.slotCountR - 1
    else if i.initValid then i.initSlots.setWidth (slotWidth + 1)
    else s.slotCountR
  validR :=
    if i.rst then false
    else if enque i && !s.deque i then true
    else if !enque i && s.deque i && decide (s.slotCountR = s.lastValidCount) then false
    else if i.initValid then decide (i.initSlots ≠ 0)
    else s.validR
  enqErrR := !i.rst && decide (s.slotErr ≠ 0)

end Module

/-! ## Bitmaps as sets -/

/-- The slots whose bits are set. -/
def slotsOf (bits : BitVec slotCount) : Finset Nat :=
  (Finset.Icc 1 slotCount).filter (fun slot => bits.getLsbD (slot - 1) = true)

section Bitmaps
variable {bits : BitVec slotCount} {slot : BitVec slotWidth}

theorem mem_slotsOf {x : Nat} :
    x ∈ slotsOf bits ↔ (1 ≤ x ∧ x ≤ slotCount) ∧ bits.getLsbD (x - 1) = true := by
  rw [slotsOf, Finset.mem_filter, Finset.mem_Icc]

theorem card_slotsOf_le (bits : BitVec slotCount) : (slotsOf bits).card ≤ slotCount := by
  have h := Finset.card_filter_le (Finset.Icc 1 slotCount)
    (fun slot => bits.getLsbD (slot - 1) = true)
  rwa [Nat.card_Icc, Nat.add_sub_cancel] at h

theorem slotsOf_zero : slotsOf (0 : BitVec slotCount) = ∅ := by
  ext x
  simp [mem_slotsOf]

theorem getLsbD_bitOf (h1 : 1 ≤ slot.toNat) {x : Nat} (hx : 1 ≤ x ∧ x ≤ slotCount) :
    (bitOf slotCount slot).getLsbD (x - 1) = decide (x = slot.toNat) := by
  rw [bitOf, BitVec.getLsbD_twoPow, ← Bool.decide_and]
  exact decide_eq_decide.mpr (by omega)

theorem slotsOf_or_bitOf (h1 : 1 ≤ slot.toNat) (hle : slot.toNat ≤ slotCount) :
    slotsOf (bits ||| bitOf slotCount slot) = insert slot.toNat (slotsOf bits) := by
  ext x
  rw [Finset.mem_insert, mem_slotsOf, mem_slotsOf, BitVec.getLsbD_or, Bool.or_eq_true]
  constructor
  · rintro ⟨hx, hbit | hbit⟩
    · exact .inr ⟨hx, hbit⟩
    · rw [getLsbD_bitOf h1 hx, decide_eq_true_eq] at hbit
      exact .inl hbit
  · rintro (rfl | ⟨hx, hbit⟩)
    · exact ⟨⟨h1, hle⟩, .inr (by rw [getLsbD_bitOf h1 ⟨h1, hle⟩, decide_eq_true_eq])⟩
    · exact ⟨hx, .inl hbit⟩

theorem slotsOf_and_not_bitOf (h1 : 1 ≤ slot.toNat) :
    slotsOf (bits &&& ~~~ bitOf slotCount slot) = (slotsOf bits).erase slot.toNat := by
  ext x
  rw [Finset.mem_erase, mem_slotsOf, mem_slotsOf, BitVec.getLsbD_and, BitVec.getLsbD_not]
  by_cases hx : 1 ≤ x ∧ x ≤ slotCount
  · have hlt : x - 1 < slotCount := by omega
    rw [getLsbD_bitOf h1 hx]
    simp [hx, hlt, and_comm]
  · simp [hx]

theorem slotsOf_initBits (hn : slotCount < 2 ^ 32) (h : slot.toNat ≤ slotCount) :
    slotsOf (initBits slotCount slot) = Finset.Icc 1 slot.toNat := by
  have hsub : (BitVec.ofNat 32 slotCount - slot.setWidth 32).toNat = slotCount - slot.toNat := by
    rw [BitVec.toNat_sub, BitVec.toNat_ofNat, BitVec.toNat_setWidth,
      Nat.mod_eq_of_lt hn, Nat.mod_eq_of_lt (Nat.lt_of_le_of_lt h hn)]
    omega
  ext x
  rw [mem_slotsOf, initBits, BitVec.getLsbD_ushiftRight, hsub, BitVec.getLsbD_allOnes,
    Finset.mem_Icc, decide_eq_true_eq]
  omega

end Bitmaps

/-! ## A cycle of the free list -/

def free (s : SlotKeeper slotCount slotWidth) : Finset Nat := slotsOf s.occupied

/-- Count and valid bit tell the truth about the bitmap. -/
structure Counted (s : SlotKeeper slotCount slotWidth) : Prop where
  lastValidCount : s.lastValidCount = 1
  slotCountR : s.slotCountR.toNat = s.free.card
  validR : s.validR = true ↔ s.free.Nonempty

/-- What a cycle may ask of a keeper: only slots that are not free come back, and an
initialisation finds the keeper empty and names slots it has. -/
structure Clean (s : SlotKeeper slotCount slotWidth) (i : Inputs slotWidth) : Prop where
  enque : enque i = true → i.slotIn.toNat ≤ slotCount ∧ i.slotIn.toNat ∉ s.free
  init : i.initValid = true →
    s.free = ∅ ∧ SlotKeeper.enque i = false ∧ i.initSlots.toNat ≤ slotCount

/-- The free slots after `enque` and `deque`. -/
def exchanged (s : SlotKeeper slotCount slotWidth) (i : Inputs slotWidth) : Finset Nat :=
  let stored := if enque i then insert i.slotIn.toNat s.free else s.free
  if s.deque i then stored.erase s.selectedSlot.toNat else stored

/-- The free slots after a cycle. -/
def nextFree (s : SlotKeeper slotCount slotWidth) (i : Inputs slotWidth) : Finset Nat :=
  if i.rst then ∅
  else if i.initValid then Finset.Icc 1 i.initSlots.toNat
  else s.exchanged i

section Cycle
variable {s : SlotKeeper slotCount slotWidth} {i : Inputs slotWidth}

theorem le_of_mem_free {x : Nat} (h : x ∈ s.free) : 1 ≤ x ∧ x ≤ slotCount :=
  (mem_slotsOf.mp h).1

/-- The loop counts down, so that the lowest slot is assigned last. -/
theorem selectedSlot_eq (s : SlotKeeper slotCount slotWidth) : s.selectedSlot =
    ((List.range slotCount).find? fun j => s.occupied.getLsbD j).elim 1
      fun j => BitVec.ofNat slotWidth (j + 1) :=
  Loops.forDown_find _ id _ (fun _ _ => rfl) slotCount 1

/-- **A keeper that has a free slot offers the lowest one.** -/
theorem selectedSlot_spec (hw : slotCount < 2 ^ slotWidth) (h : s.free.Nonempty) :
    s.selectedSlot.toNat ∈ s.free ∧ ∀ x ∈ s.free, s.selectedSlot.toNat ≤ x := by
  obtain ⟨slot, hslot⟩ := h
  obtain ⟨⟨h1, hle⟩, hocc⟩ := mem_slotsOf.mp hslot
  have hsome : ((List.range slotCount).find? fun j => s.occupied.getLsbD j).isSome = true :=
    List.find?_isSome.mpr ⟨slot - 1, List.mem_range.mpr (by omega), hocc⟩
  obtain ⟨j, hfind⟩ := Option.isSome_iff_exists.mp hsome
  obtain ⟨hj, hmem, hbelow⟩ := List.find?_range_eq_some.mp hfind
  have hlt := List.mem_range.mp hmem
  have hsel : s.selectedSlot.toNat = j + 1 := by
    rw [selectedSlot_eq, hfind]
    exact Nat.mod_eq_of_lt (by omega)
  rw [hsel]
  refine ⟨mem_slotsOf.mpr ⟨by omega, hj⟩, fun x hx => ?_⟩
  by_contra hx'
  obtain ⟨⟨hx1, -⟩, hset⟩ := mem_slotsOf.mp hx
  have hclear := hbelow (x - 1) (by omega)
  rw [hset] at hclear
  exact Bool.false_ne_true hclear

theorem selectedSlot_mem (hw : slotCount < 2 ^ slotWidth) (h : s.free.Nonempty) :
    s.selectedSlot.toNat ∈ s.free :=
  (selectedSlot_spec hw h).1

theorem selectedSlot_mem_of_deque (hw : slotCount < 2 ^ slotWidth) (hc : s.Counted)
    (hd : s.deque i = true) : s.selectedSlot.toNat ∈ s.free :=
  selectedSlot_mem hw (hc.validR.mp (Bool.and_eq_true_iff.mp hd).1)

theorem one_le_slotIn (he : enque i = true) : 1 ≤ i.slotIn.toNat := by
  have hne := of_decide_eq_true (Bool.and_eq_true_iff.mp he).2
  exact Nat.one_le_iff_ne_zero.mpr (fun hz => hne (BitVec.eq_of_toNat_eq hz))

theorem slotsOf_nextOccupied (hin : enque i = true → i.slotIn.toNat ≤ slotCount)
    (hout : s.deque i = true → s.selectedSlot.toNat ∈ s.free) :
    slotsOf (s.nextOccupied i) = s.exchanged i := by
  unfold nextOccupied exchanged free
  cases hd : s.deque i with
  | false =>
    cases he : enque i with
    | false => rfl
    | true => exact slotsOf_or_bitOf (one_le_slotIn he) (hin he)
  | true =>
    have hsel := (le_of_mem_free (hout hd)).1
    cases he : enque i with
    | false => exact slotsOf_and_not_bitOf hsel
    | true =>
      simp only [if_true]
      rw [slotsOf_and_not_bitOf hsel, slotsOf_or_bitOf (one_le_slotIn he) (hin he)]

/-- The bitmap follows the set. -/
theorem free_next_eq (hn : slotCount < 2 ^ 32)
    (hin : enque i = true → i.slotIn.toNat ≤ slotCount)
    (hinit : i.initValid = true → i.initSlots.toNat ≤ slotCount)
    (hout : s.deque i = true → s.selectedSlot.toNat ∈ s.free) :
    (s.next i).free = s.nextFree i := by
  unfold free next nextFree
  cases hr : i.rst with
  | true => exact slotsOf_zero
  | false =>
    cases hi : i.initValid with
    | true => exact slotsOf_initBits hn (hinit hi)
    | false => exact slotsOf_nextOccupied hin hout

theorem free_next (hn : slotCount < 2 ^ 32) (hw : slotCount < 2 ^ slotWidth) (hc : s.Counted)
    (h : s.Clean i) : (s.next i).free = s.nextFree i :=
  free_next_eq hn (fun he => (h.enque he).1) (fun hi => (h.init hi).2.2)
    (selectedSlot_mem_of_deque hw hc)

/-- The number of free slots after a cycle without initialisation; a slot that was free
already does not count. -/
theorem card_exchanged_add (hout : s.deque i = true → s.selectedSlot.toNat ∈ s.free) :
    (s.exchanged i).card + (s.deque i).toNat +
      (enque i && decide (i.slotIn.toNat ∈ s.free)).toNat = s.free.card + (enque i).toNat := by
  have herase : ∀ stored : Finset Nat, s.free ⊆ stored →
      (if s.deque i then stored.erase s.selectedSlot.toNat else stored).card +
        (s.deque i).toNat = stored.card := by
    intro stored hsub
    cases hd : s.deque i with
    | false => rfl
    | true => exact Finset.card_erase_add_one (hsub (hout hd))
  unfold exchanged
  cases he : enque i with
  | false => exact herase s.free (Finset.Subset.refl _)
  | true =>
    have hins := herase _ (Finset.subset_insert i.slotIn.toNat s.free)
    by_cases hmem : i.slotIn.toNat ∈ s.free
    · rw [Finset.insert_eq_of_mem hmem] at hins
      simp [hmem, hins]
    · simp [hmem, hins]

theorem card_exchanged (hw : slotCount < 2 ^ slotWidth) (hc : s.Counted) (h : s.Clean i) :
    (s.exchanged i).card + (s.deque i).toNat = s.free.card + (enque i).toNat := by
  have hadd := card_exchanged_add (i := i) (selectedSlot_mem_of_deque hw hc)
  have hnew : (enque i && decide (i.slotIn.toNat ∈ s.free)) = false := by
    cases he : enque i with
    | false => rfl
    | true => exact decide_eq_false (h.enque he).2
  rwa [hnew] at hadd

theorem toNat_one : (1 : BitVec (slotWidth + 1)).toNat = 1 := by
  have hpos := Nat.two_pow_pos slotWidth
  change 1 % 2 ^ (slotWidth + 1) = 1
  exact Nat.mod_eq_of_lt (by omega)

/-- A keeper that is being initialised hands nothing out. -/
theorem deque_of_init (hc : s.Counted) (h : s.Clean i) (hi : i.initValid = true) :
    s.deque i = false := by
  have hv : s.validR = false := by
    rw [← Bool.not_eq_true, hc.validR, (h.init hi).1]
    exact Finset.not_nonempty_empty
  simp [deque, slotOutValid, hv]

theorem lastValidCount_next (hc : s.Counted) (h : s.Clean i) :
    (s.next i).lastValidCount = 1 := by
  have hocc : (enque i && s.isOccupied i.slotIn) = false := by
    by_contra hno
    obtain ⟨he, hocc⟩ := Bool.and_eq_true_iff.mp (Bool.not_eq_false _ ▸ hno)
    exact (h.enque he).2 (mem_slotsOf.mpr ⟨⟨one_le_slotIn he, (h.enque he).1⟩, hocc⟩)
  simp [next, hocc, hc.lastValidCount]

variable (hn : slotCount < 2 ^ 32) (hw : slotCount < 2 ^ slotWidth) (hc : s.Counted)
  (h : s.Clean i)
include hn hw hc h

theorem slotCountR_next : (s.next i).slotCountR.toNat = (s.next i).free.card := by
  have hbound : (s.next i).free.card ≤ slotCount := card_slotsOf_le _
  rw [free_next hn hw hc h] at hbound ⊢
  cases hr : i.rst with
  | true => simp [next, nextFree, hr]
  | false =>
    cases hi : i.initValid with
    | true =>
      have hd := deque_of_init hc h hi
      obtain ⟨-, he, hle⟩ := h.init hi
      simp only [next, nextFree, hr, hi, hd, he]
      simp only [Bool.false_eq_true, if_false, if_true, Bool.not_false, Bool.and_true,
        Bool.and_false, Nat.card_Icc, Nat.add_sub_cancel, BitVec.toNat_setWidth]
      exact Nat.mod_eq_of_lt (by omega)
    | false =>
      have hcard := card_exchanged hw hc h
      simp only [nextFree, hr, hi, Bool.false_eq_true, if_false] at hbound ⊢
      have hcount := hc.slotCountR
      cases he : enque i <;> cases hd : s.deque i <;>
        simp only [he, hd, Bool.toNat_true, Bool.toNat_false] at hcard <;>
        simp only [next, hr, hi, he, hd, Bool.not_true, Bool.not_false, Bool.and_self,
          Bool.and_false, Bool.and_true, Bool.false_eq_true, if_true, if_false]
      · omega
      · rw [BitVec.toNat_sub_of_le (by rw [BitVec.le_def, toNat_one]; omega), toNat_one]
        omega
      · rw [BitVec.toNat_add_of_lt (by rw [toNat_one]; omega), toNat_one]
        omega
      · omega

theorem validR_next : (s.next i).validR = true ↔ (s.next i).free.Nonempty := by
  rw [free_next hn hw hc h, ← Finset.card_pos]
  have hvalid := hc.validR
  rw [← Finset.card_pos] at hvalid
  cases hr : i.rst with
  | true => simp [next, nextFree, hr]
  | false =>
    cases hi : i.initValid with
    | true =>
      have hd := deque_of_init hc h hi
      obtain ⟨-, he, -⟩ := h.init hi
      have hne : i.initSlots ≠ 0 ↔ 0 < i.initSlots.toNat := by
        rw [Nat.pos_iff_ne_zero, ne_eq, ne_eq, ← BitVec.toNat_inj]
        rfl
      simpa [next, nextFree, hr, hi, hd, he] using hne
    | false =>
      have hcard := card_exchanged hw hc h
      have hlast : s.slotCountR = s.lastValidCount ↔ s.free.card = 1 := by
        rw [hc.lastValidCount, ← BitVec.toNat_inj, hc.slotCountR, toNat_one]
      simp only [nextFree, hr, hi, Bool.false_eq_true, if_false]
      cases he : enque i <;> cases hd : s.deque i <;>
        simp only [he, hd, Bool.toNat_true, Bool.toNat_false] at hcard <;>
        simp only [next, hr, hi, he, hd, Bool.not_true, Bool.not_false, Bool.and_self,
          Bool.and_false, Bool.and_true, Bool.true_and, Bool.false_and, Bool.false_eq_true,
          if_true, if_false]
      · rw [hvalid]
        omega
      · -- the last free slot is the one for which count and `last_valid_count` agree
        have hv : s.validR = true := (Bool.and_eq_true_iff.mp hd).1
        by_cases hone : s.free.card = 1
        · rw [if_pos (decide_eq_true (hlast.mpr hone))]
          exact iff_of_false Bool.false_ne_true (by omega)
        · rw [if_neg (by simpa using mt hlast.mp hone)]
          exact iff_of_true hv (by omega)
      · exact iff_of_true trivial (by omega)
      · have hv : s.validR = true := (Bool.and_eq_true_iff.mp hd).1
        have hpos := hvalid.mp hv
        exact iff_of_true hv (by omega)

/-- A clean cycle keeps count and valid bit right. -/
theorem Counted.next : (s.next i).Counted where
  lastValidCount := lastValidCount_next hc h
  slotCountR := slotCountR_next hn hw hc h
  validR := validR_next hn hw hc h

end Cycle

end SlotKeeper
end Rosebud
