import Mathlib.Data.Finset.Card
import Mathlib.Data.List.Nodup
import Mathlib.Order.CompletePartialOrder
import Mathlib.Order.Interval.Set.Disjoint
import Rosebud.BasicFifo
import Rosebud.Lanes
import Rosebud.Loops
import Rosebud.Selectors

/-! # The scratchpad slots of the PCIe controllers

`pcie_cont_read` and `pcie_cont_write` keep the data of the requests in progress in a
scratchpad RAM.  It is cut into `PCIE_SLOT_COUNT` regions of 2048 bytes: the region of
a slot starts at `{slot, 11'd0}`.  A bitmap has a one for every free slot, and the
slot given to the next request is the lowest free one.

The bitmap is judged by `Balanced`: counting for each slot the requests that hold it,
a slot of the scratchpad is free or held once.
-/
namespace Rosebud

/-- The parameters of the two controllers, with what the design relies on: a tag and a
scratchpad address have room for a slot, and the scratchpad for all regions. -/
structure PcieParams where
  slotCount : Nat
  tagWidth : Nat
  ramAddrWidth : Nat
  ramSize : Nat
  coreWidth : Nat
  coreTagWidth : Nat
  coreAddrWidth : Nat
  one_lt_slotCount : 1 < slotCount
  slot_le_tag : clog2 slotCount ≤ tagWidth
  slot_le_ramAddr : clog2 slotCount + 11 ≤ ramAddrWidth
  slots_le_ramSize : slotCount * 2048 ≤ ramSize

namespace PcieParams

/-- The parameters the boards set. -/
def board : PcieParams where
  slotCount := 16
  tagWidth := 14
  ramAddrWidth := 19
  ramSize := 2 ^ 15
  coreWidth := 4
  coreTagWidth := 5
  coreAddrWidth := 26
  one_lt_slotCount := by decide
  slot_le_tag := by decide
  slot_le_ramAddr := by decide
  slots_le_ramSize := by decide

variable (p : PcieParams)

/-- `PCIE_SLOT_WIDTH`. -/
def slotWidth : Nat := clog2 p.slotCount

abbrev Slot : Type := BitVec p.slotWidth

/-- A tag of the PCIe engine is as wide as the engine wants it. -/
abbrev Tag : Type := BitVec p.tagWidth

/-- `AXIS_TAG_WIDTH` bits: a core and one of its slots. -/
abbrev CoreTag : Type := BitVec (p.coreWidth + p.coreTagWidth)

theorem slotWidth_pos : 0 < p.slotWidth := clog2_pos p.one_lt_slotCount

theorem slotCount_le : p.slotCount ≤ 2 ^ p.slotWidth := le_two_pow_clog2 p.slotCount

variable {p}

/-- `{x, 11'd0}`, as a scratchpad address. -/
def regionStart {w : Nat} (x : BitVec w) : BitVec p.ramAddrWidth :=
  (x ++ (0 : BitVec 11)).setWidth p.ramAddrWidth

/-- A slot as a tag of the PCIe engine. -/
def tagOf (slot : p.Slot) : p.Tag := slot.setWidth p.tagWidth

/-- The slot a tag indexes the tables with. -/
def slotOf (tag : p.Tag) : p.Slot := tag.setWidth p.slotWidth

@[simp] theorem slotOf_tagOf (slot : p.Slot) : slotOf (tagOf slot) = slot := by
  have hlt := slot.isLt
  have hle : 2 ^ p.slotWidth ≤ 2 ^ p.tagWidth :=
    Nat.pow_le_pow_right (by omega) p.slot_le_tag
  apply BitVec.eq_of_toNat_eq
  rw [slotOf, tagOf, BitVec.toNat_setWidth, BitVec.toNat_setWidth,
    Nat.mod_eq_of_lt (Nat.lt_of_lt_of_le hlt hle), Nat.mod_eq_of_lt hlt]

@[simp] theorem toNat_tagOf (slot : p.Slot) : (tagOf slot).toNat = slot.toNat := by
  have hle : 2 ^ p.slotWidth ≤ 2 ^ p.tagWidth :=
    Nat.pow_le_pow_right (by omega) p.slot_le_tag
  rw [tagOf, BitVec.toNat_setWidth, Nat.mod_eq_of_lt (Nat.lt_of_lt_of_le slot.isLt hle)]

/-- The region of a slot number starts at its multiple of 2048. -/
theorem toNat_regionStart {w : Nat} (x : BitVec w) (h : x.toNat < 2 ^ p.slotWidth) :
    (regionStart x : BitVec p.ramAddrWidth).toNat = x.toNat * 2048 := by
  have hle : 2 ^ (p.slotWidth + 11) ≤ 2 ^ p.ramAddrWidth :=
    Nat.pow_le_pow_right (by omega) p.slot_le_ramAddr
  have hpow : 2 ^ (p.slotWidth + 11) = 2 ^ p.slotWidth * 2048 := by rw [Nat.pow_add]
  have happ : (x ++ (0 : BitVec 11)).toNat = x.toNat * 2048 := by
    rw [Lanes.toNat_append]
    simp
  rw [regionStart, BitVec.toNat_setWidth, happ]
  exact Nat.mod_eq_of_lt (by omega)

/-- A slot and its tag name the same region. -/
theorem regionStart_tagOf (slot : p.Slot) :
    (regionStart (tagOf slot) : BitVec p.ramAddrWidth) = regionStart slot := by
  apply BitVec.eq_of_toNat_eq
  rw [toNat_regionStart _ slot.isLt, toNat_regionStart _ (by simp [slot.isLt]), toNat_tagOf]

/-- **Bytes of the regions of different slots are different bytes of the RAM.** -/
theorem region_byte_inj {slot slot' : p.Slot} (hs : slot.toNat < p.slotCount)
    (hs' : slot'.toNat < p.slotCount) {i j : Nat} (hi : i < 2048) (hj : j < 2048)
    (h : ((regionStart slot : BitVec p.ramAddrWidth).toNat + i) % p.ramSize =
      ((regionStart slot' : BitVec p.ramAddrWidth).toNat + j) % p.ramSize) :
    slot = slot' ∧ i = j := by
  have hfit := p.slots_le_ramSize
  rw [toNat_regionStart slot slot.isLt, toNat_regionStart slot' slot'.isLt,
    Nat.mod_eq_of_lt (by omega), Nat.mod_eq_of_lt (by omega)] at h
  exact ⟨BitVec.eq_of_toNat_eq (by omega), by omega⟩

end PcieParams

/-- `pcie_dma_read_desc_*` and `pcie_dma_write_desc_*`: an order to the PCIe engine. -/
structure PcieDesc (p : PcieParams) where
  pcieAddr : BitVec 64
  ramAddr : BitVec p.ramAddrWidth
  len : BitVec 16
  tag : p.Tag
deriving DecidableEq, Inhabited

/-- `host_dma_read_desc_*` and `host_dma_write_desc_*`: a request of the host. -/
structure HostDesc where
  pcieAddr : BitVec 64
  ramAddr : BitVec 32
  len : BitVec 16
  tag : BitVec 32
deriving DecidableEq

/-! ## The bitmap of free slots -/

namespace PcieSlots
open PcieParams
variable {p : PcieParams}

/-- The mask `1 << k`. -/
def oneHot (k : Nat) : BitVec p.slotCount := (1 : BitVec p.slotCount) <<< k

/-- One iteration of the selection: the slot and its one-hot mask. -/
def selectStep (free : BitVec p.slotCount) (i : Nat) (chosen : p.Slot × BitVec p.slotCount) :
    p.Slot × BitVec p.slotCount :=
  if free.getLsbD i then (BitVec.ofNat p.slotWidth i, oneHot i) else chosen

/-- `selected_rx_slot` and `selected_rx_slot_1hot`: the loop counts down, so that the
lowest free slot is assigned last. -/
def select (free : BitVec p.slotCount) : p.Slot × BitVec p.slotCount :=
  (List.range p.slotCount).foldr (selectStep free) (0, 0)

/-- The bitmap after the edge: the selected slot taken, the slot of a tag given back. -/
def update (free : BitVec p.slotCount) (take release : Bool) (tag : Nat) :
    BitVec p.slotCount :=
  if take && release then (free &&& ~~~(select free).2) ||| oneHot tag
  else if take then free &&& ~~~(select free).2
  else if release then free ||| oneHot tag
  else free

/-- Whether a slot is free. -/
def isFree (free : BitVec p.slotCount) (slot : p.Slot) : Bool := free.getLsbD slot.toNat

theorem select_eq (free : BitVec p.slotCount) : select free =
    ((List.range p.slotCount).find? fun i => free.getLsbD i).elim (0, 0)
      fun i => (BitVec.ofNat p.slotWidth i, oneHot i) :=
  Loops.forDown_find _ id _ (fun _ _ => rfl) p.slotCount (0, 0)

/-- If any slot is free, a free one is selected, with its mask. -/
theorem select_of_ne_zero {free : BitVec p.slotCount} (h : free ≠ 0) :
    isFree free (select free).1 = true ∧ (select free).1.toNat < p.slotCount ∧
      (select free).2 = oneHot (select free).1.toNat := by
  have hset : ∃ i ∈ List.range p.slotCount, free.getLsbD i = true := by
    by_contra hno
    refine h (BitVec.eq_of_getLsbD_eq fun i hi => ?_)
    rw [BitVec.ofNat_eq_ofNat, BitVec.getLsbD_zero]
    exact Bool.eq_false_iff.mpr fun hb => hno ⟨i, List.mem_range.mpr hi, hb⟩
  obtain ⟨i, hfind⟩ := Option.isSome_iff_exists.mp (List.find?_isSome.mpr hset)
  have hfree : free.getLsbD i = true := List.find?_some hfind
  have hlt : i < p.slotCount := List.mem_range.mp (List.mem_of_find?_eq_some hfind)
  have hnat : (BitVec.ofNat p.slotWidth i).toNat = i := by
    exact Nat.mod_eq_of_lt (Nat.lt_of_lt_of_le hlt p.slotCount_le)
  rw [select_eq, hfind, Option.elim_some, isFree, hnat]
  exact ⟨hfree, hlt, rfl⟩

theorem getLsbD_oneHot (k : Nat) {i : Nat} (h : i < p.slotCount) :
    (oneHot k : BitVec p.slotCount).getLsbD i = decide (i = k) := by
  rw [oneHot, BitVec.getLsbD_shiftLeft]
  by_cases hk : i = k
  · subst hk
    simp [h]
    omega
  · simp [h, hk]
    omega

/-- How often a slot is the one that is given out. -/
theorem count_given (taken : Bool) (slot chosen : p.Slot) :
    (if taken then [chosen] else []).count slot = (taken && decide (slot = chosen)).toNat := by
  cases taken with
  | false => rfl
  | true => by_cases hs : slot = chosen <;> simp [hs, Ne.symm]

/-- A slot after the edge: still free unless it was taken, or given back. -/
theorem isFree_update {free : BitVec p.slotCount} {take release : Bool} (tag : Nat)
    (htake : take = true → free ≠ 0) {slot : p.Slot} (hslot : slot.toNat < p.slotCount) :
    isFree (update free take release tag) slot =
      ((isFree free slot && !(take && decide (slot = (select free).1))) ||
        (release && decide (slot.toNat = tag))) := by
  have hmask : take = true → ((select free).2.getLsbD slot.toNat =
      decide (slot = (select free).1)) := by
    intro ht
    obtain ⟨-, -, hone⟩ := select_of_ne_zero (htake ht)
    rw [hone, getLsbD_oneHot _ hslot]
    exact decide_eq_decide.mpr BitVec.toNat_inj
  unfold update isFree
  cases take <;> cases release
  · simp
  · have hset := getLsbD_oneHot tag hslot
    simp only [Bool.false_and, Bool.false_eq_true, if_false, if_true, BitVec.getLsbD_or, hset]
    simp
  · simp only [Bool.and_false, Bool.false_eq_true, if_false, if_true, BitVec.getLsbD_and,
      BitVec.getLsbD_not, hmask rfl, hslot]
    simp
  · have hset := getLsbD_oneHot tag hslot
    simp only [Bool.and_true, if_true, BitVec.getLsbD_or, BitVec.getLsbD_and,
      BitVec.getLsbD_not, hmask rfl, hset, hslot]
    simp

/-! ## The account of the slots -/

/-- Every slot of the scratchpad is free or held by one of `held`; nothing else is
held. -/
def Balanced (free : BitVec p.slotCount) (held : List p.Slot) : Prop :=
  ∀ slot : p.Slot, held.count slot + (isFree free slot).toNat =
    (decide (slot.toNat < p.slotCount)).toNat

section Account
variable {free : BitVec p.slotCount} {held : List p.Slot}

theorem balanced_allOnes : Balanced (BitVec.allOnes p.slotCount) [] := by
  intro slot
  simp [isFree]

variable (h : Balanced free held)
include h

theorem Balanced.nodup : held.Nodup := by
  rw [List.nodup_iff_count_le_one]
  intro slot
  have := h slot
  have := Bool.toNat_le (decide (slot.toNat < p.slotCount))
  omega

theorem Balanced.lt_slotCount {slot : p.Slot} (hs : slot ∈ held) : slot.toNat < p.slotCount := by
  have hpos := List.count_pos_iff.mpr hs
  have := h slot
  by_contra hn
  simp only [hn, decide_false, Bool.toNat_false] at this
  omega

theorem Balanced.not_mem {slot : p.Slot} (hf : isFree free slot = true) : slot ∉ held := by
  intro hs
  have hpos := List.count_pos_iff.mpr hs
  have := h slot
  have := Bool.toNat_le (decide (slot.toNat < p.slotCount))
  simp only [hf, Bool.toNat_true] at *
  omega

/-- There are no more holders than slots. -/
theorem Balanced.length_le : held.length ≤ 2 ^ p.slotWidth := by
  have hnodup : (held.map BitVec.toNat).Nodup :=
    h.nodup.map fun _ _ heq => BitVec.eq_of_toNat_eq heq
  have hsub : (held.map BitVec.toNat).toFinset ⊆ Finset.range (2 ^ p.slotWidth) := by
    intro n hn
    obtain ⟨slot, -, rfl⟩ := List.mem_map.mp (List.mem_toFinset.mp hn)
    exact Finset.mem_range.mpr slot.isLt
  have hcard := Finset.card_le_card hsub
  rwa [List.toFinset_card_of_nodup hnodup, List.length_map, Finset.card_range] at hcard

/-- **The bitmap stays the complement of the slots in use**, whatever is taken and
given back in a cycle: the holders after it are those before it, with the selected
slot if one was taken and without the one given back. -/
theorem Balanced.update {take release : Bool} {tag : Nat}
    (back : p.Slot) {held' : List p.Slot} (htake : take = true → free ≠ 0)
    (hback : release = true → back ∈ held ∧ back.toNat = tag)
    (hcount : ∀ slot, held'.count slot + (release && decide (slot = back)).toNat =
      held.count slot + (take && decide (slot = (select free).1)).toNat) :
    Balanced (PcieSlots.update free take release tag) held' := by
  intro slot
  have hbal := h slot
  have hc := hcount slot
  by_cases hslot : slot.toNat < p.slotCount
  · rw [isFree_update tag htake hslot]
    simp only [hslot, decide_true, Bool.toNat_true] at hbal ⊢
    have hrel : (release && decide (slot.toNat = tag)) = (release && decide (slot = back)) := by
      cases release with
      | false => rfl
      | true =>
        obtain ⟨-, htag⟩ := hback rfl
        simp [← htag, BitVec.toNat_inj]
    rw [hrel]
    cases hr : release && decide (slot = back) with
    | true =>
      obtain ⟨hrel, hs⟩ := Bool.and_eq_true_iff.mp hr
      have hpos := List.count_pos_iff.mpr (hback hrel).1
      rw [← of_decide_eq_true hs] at hpos
      have hnot : isFree free slot = false := by
        cases hf : isFree free slot with
        | false => rfl
        | true =>
          simp only [hf, Bool.toNat_true] at hbal
          omega
      have hsel : (take && decide (slot = (select free).1)) = false := by
        cases ht : take with
        | false => rfl
        | true =>
          refine decide_eq_false fun heq => ?_
          have := (select_of_ne_zero (htake ht)).1
          rw [← heq, hnot] at this
          exact Bool.false_ne_true this
      simp only [hr, hsel, hnot, Bool.toNat_true, Bool.toNat_false] at hc hbal
      simp
      omega
    | false =>
      cases hs : take && decide (slot = (select free).1) with
      | true =>
        obtain ⟨ht, heq⟩ := Bool.and_eq_true_iff.mp hs
        have hfree := (select_of_ne_zero (htake ht)).1
        rw [← of_decide_eq_true heq] at hfree
        simp only [hr, hs, hfree, Bool.toNat_true, Bool.toNat_false] at hc hbal
        simp
        omega
      | false =>
        simp only [hr, hs, Bool.toNat_false] at hc
        simp
        omega
  · have hzero : held.count slot = 0 ∧ isFree free slot = false := by
      simp only [hslot, decide_false, Bool.toNat_false] at hbal
      refine ⟨by omega, ?_⟩
      cases hf : isFree free slot with
      | false => rfl
      | true =>
        simp only [hf, Bool.toNat_true] at hbal
        omega
    have hsel : (take && decide (slot = (select free).1)) = false := by
      cases ht : take with
      | false => rfl
      | true =>
        refine decide_eq_false fun heq => hslot ?_
        rw [heq]
        exact (select_of_ne_zero (htake ht)).2.1
    have hout : isFree (PcieSlots.update free take release tag) slot = false :=
      BitVec.getLsbD_of_ge _ _ (Nat.le_of_not_lt hslot)
    simp only [hsel, hzero.1, Bool.toNat_false] at hc
    simp only [hout, hslot, decide_false, Bool.toNat_false]
    omega

end Account

/-! ## Ranges of the scratchpad -/

/-- A range of scratchpad bytes. -/
structure Span where
  start : Nat
  len : Nat
deriving DecidableEq

/-- The bytes `[start, start + len)`. -/
def Span.bytes (x : Span) : Set Nat := Set.Ico x.start (x.start + x.len)

/-- The ranges of requests in different slots are disjoint. -/
theorem disjoint_regions {slot slot' : p.Slot} (hne : slot ≠ slot') {n m : Nat}
    (hn : n ≤ 2048) (hm : m ≤ 2048) :
    Disjoint (Span.bytes ⟨(regionStart slot : BitVec p.ramAddrWidth).toNat, n⟩)
      (Span.bytes ⟨(regionStart slot' : BitVec p.ramAddrWidth).toNat, m⟩) := by
  have hnat : slot.toNat ≠ slot'.toNat := fun heq => hne (BitVec.eq_of_toNat_eq heq)
  rw [toNat_regionStart slot slot.isLt, toNat_regionStart slot' slot'.isLt, Span.bytes,
    Span.bytes, Set.disjoint_left]
  intro a ha ha'
  have h₁ := Set.mem_Ico.mp ha
  have h₂ := Set.mem_Ico.mp ha'
  simp only at h₁ h₂
  omega

/-! ## Stages of descriptors

Both controllers hand descriptors on the same way: a register in front of a queue in
front of a vendored engine, which reports them in any order. -/

/-- The list without the descriptor that is reported. -/
def dropReported {α : Type} (l : List α) (index : Option Nat) (reported : Bool) : List α :=
  match index with
  | some k => if reported then l.eraseIdx k else l
  | none => l

/-- What is reported is one of the list, and the rest stays. -/
theorem dropReported_perm {α : Type} {l : List α} {index : Option Nat} {reported : Option α}
    (h : ∀ x, reported = some x → index.bind (l[·]?) = some x) :
    l.Perm (reported.toList ++ dropReported l index reported.isSome) := by
  cases reported with
  | none => cases index <;> simp [dropReported]
  | some x =>
    obtain ⟨k, rfl, hk⟩ := Option.bind_eq_some_iff.mp (h x rfl)
    obtain ⟨hlt, rfl⟩ := List.getElem?_eq_some_iff.mp hk
    exact (List.getElem_cons_eraseIdx_perm hlt).symm

theorem mem_of_mem_dropReported {α : Type} {l : List α} {index : Option Nat} {reported : Bool}
    {x : α} (h : x ∈ dropReported l index reported) : x ∈ l := by
  cases index with
  | none => exact h
  | some k =>
    cases reported with
    | false => exact h
    | true => exact List.mem_of_mem_eraseIdx h

/-- A stage of descriptors: a register in front of a queue in front of a list of holders.
A cycle puts `fresh` into the register, and what is reported leaves the holders. -/
theorem stage_perm {aw : Nat} {α β : Type} [DecidableEq α] {fifo : BasicFifo aw α}
    {i : BasicFifo.Inputs α} (hv : fifo.Valid) (hr : (i.rst || i.clear) = false)
    (hroom : i.dinValid = true → fifo.dinReady = true) {holders rest : List β}
    {reported : List β} (hrest : holders.Perm (reported ++ rest)) (desc : β → α)
    {new : List β} (hnew : new.map desc = if fifo.deque i then [fifo.dout] else [])
    (fresh : List α) :
    (fresh ++ (fifo.next i).contents ++ (rest ++ new).map desc ++ reported.map desc).Perm
      (fresh ++ ((if i.dinValid then [i.din] else []) ++ fifo.contents ++ holders.map desc)) := by
  have hcons := BasicFifo.conservation hv hr
  have henque : fifo.enque i = i.dinValid := by
    unfold BasicFifo.enque
    cases hd : i.dinValid with
    | false => rfl
    | true => simp [hroom hd]
  rw [henque, ← hnew] at hcons
  rw [List.perm_iff_count]
  intro x
  have hcount := congrArg (List.count x) hcons
  have hhold := (hrest.map desc).count_eq x
  simp only [List.map_append, List.count_append] at hcount hhold ⊢
  omega

end PcieSlots
end Rosebud
