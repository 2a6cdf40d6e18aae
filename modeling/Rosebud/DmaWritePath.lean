import Rosebud.DmaWrite
import Rosebud.MemSys

/-! # The writes of the DMA engine, from `axis_dma` to the memories

A write that `axis_dma` puts out passes the skid buffer `dma_wr_reg` of the RPU's wrapper
and is split by `mem_sys`: it goes to the queue of its own memory, and with
`dma_cmd_hdr_wr_en` to the queue of the data memory too.  Both queues have to be ready for
either to take it.

`axis_dma` has a reset of its own, which `sync_reset` raises at once and drops late; the
reset of the wrapper, with the skid buffer and `mem_sys`, is registered once more and comes a
cycle after it.

`mem_sys` does not qualify the header enable, which is a bit of the data the skid buffer
holds.  An empty skid buffer shows what was last on its input, where the enable comes with
`mem_wr_en`; but a reset does not touch its data.  A header write that waits in the buffer for
a queue when the reset comes stays in its data register, and makes a write to the data memory
after the reset (`header_after_reset`).  If the bit is low after the reset, and packets with
headers go to slots in the packet memory, the memories make the writes issued, once each and
in their order, and no others (`writes_exact`).
-/
namespace Rosebud.DmaWritePath
open Clocked MemSys

variable {M : MemConfig}

/-- The write half of the DMA engine. -/
abbrev dma (M : MemConfig) : DmaWrite.Config where
  maskBits := M.lineBits
  addrWidth := 26
  lenWidth := M.lenWidth
  destWidthIn := M.tagWidth
  userWidthIn := M.portWidth
  hdrAddrBits := M.hdrAddrBits
  hdrMsbWidth := 24 - M.hdrAddrBits
  maskBits_le := M.lineBits_le_addrWidth

/-- The write on offer. -/
def cmd (r : DmaWrite.Regs (dma M)) : WrCmd M where
  addr := DmaWrite.wrAddr r
  hdrEn := DmaWrite.memHdrWrEn r
  hdrAddr := (DmaWrite.memHdrWrAddr r).setWidth 24
  data := DmaWrite.memWrData r
  strb := DmaWrite.memWrStrb r
  last := DmaWrite.wrLastPkt r

/-- What a write is to do in the data memory: at its own address, if that is one of the
data memory, and at its header address. -/
def dmemLines (x : WrCmd M) : List (LineCmd M M.dmemAw) :=
  (if isDmem x.addr then [⟨x.addr.setWidth _, x.strb, x.data⟩] else []) ++
    if x.hdrEn then [⟨x.hdrAddr.setWidth _, x.strb, x.data⟩] else []

/-- What a write is to do in the packet memory. -/
def pmemLines (x : WrCmd M) : List (LineCmd M M.pmemAw) :=
  if isPmem x.addr then [⟨x.addr.setWidth _, x.strb, x.data⟩] else []

/-- The circuits, and what happened: the writes issued by `axis_dma` and those made at the
ports of the two memories. -/
structure Bench (M : MemConfig) where
  dma : DmaWrite.Bench (dma M)
  wrReg : PipeRegister (WrCmd M)
  mem : MemSys M
  /-- The banks of the packet memory whose port registers got a write of the DMA. -/
  pmemGranted : Bool → Bool
  issued : List (WrCmd M)
  dmemDone : List (LineCmd M M.dmemAw)
  pmemDone : List (LineCmd M M.pmemAw)

/-- The surroundings: packets and receive descriptors on one side, the core, the broadcast
messages, the accelerators and the reads of the DMA on the other. -/
structure Cycle (M : MemConfig) where
  dma : DmaWrite.Cycle (dma M)
  mem : MemSys.Inputs M
  /-- The reset of `axis_dma`. -/
  dmaRst : Bool
  /-- The reset of the wrapper. -/
  rst : Bool

/-- The registers of `axis_dma` in reset, from those they would get: what reset does not set
keeps its new value. -/
def resetRegs (r : DmaWrite.Regs (dma M)) : DmaWrite.Regs (dma M) :=
  { r with
    wrStateR := .idle
    hdrEnR := false
    wrLast := false
    extraCycleR := false
    wrStrb1 := 0
    wrStrb2 := 0
    wrDataEn := false
    wrFirstPkt := false
    wrPktLen := 0
    descLateWrite := false
    recvDescVR := false }

namespace Bench
variable (b : Bench M) (c : Cycle M)

def regInputs : PipeRegister.Inputs (WrCmd M) where
  rst := false
  dinValid := b.dma.regs.wrDataEn
  din := cmd b.dma.regs
  doutReady := b.mem.dmaCmdWrReady

def memWrReady : Bool := b.wrReg.dinReady 2 b.regInputs

def dmaCycle : DmaWrite.Cycle (DmaWritePath.dma M) := { c.dma with memWrReady := b.memWrReady }

def memInputs : MemSys.Inputs M :=
  { c.mem with
    rst := c.rst
    dmaCmdWrEn := b.wrReg.doutValid 2 b.regInputs
    dmaCmdWr := b.wrReg.dout 2 b.regInputs }

/-- The write that leaves `axis_dma`. -/
def issuing : List (WrCmd M) :=
  if b.dma.regs.wrDataEn && b.memWrReady then [cmd b.dma.regs] else []

/-- The writes of the DMA at the ports of the data memory. -/
def dmemWrites : List (LineCmd M M.dmemAw) :=
  [false, true].filterMap fun bank =>
    if b.mem.dmaDmemWrGnt bank && (b.mem.dmaDmemPort bank).en then
      some (b.mem.dmaDmemPort bank).line
    else none

/-- The writes of the DMA at the ports of the packet memory. -/
def pmemWrites : List (LineCmd M M.pmemAw) :=
  [false, true].filterMap fun bank =>
    if b.pmemGranted bank && (b.mem.pmemPort bank).en then some (b.mem.pmemPort bank).line
    else none

/-- `axis_dma` after the clock edge. -/
def nextDma : DmaWrite.Bench (DmaWritePath.dma M) :=
  let dma := b.dma.step (b.dmaCycle c)
  if c.dmaRst then { dma with regs := resetRegs dma.regs } else dma

def step : Bench M where
  dma := b.nextDma c
  wrReg := b.wrReg.next 2 { b.regInputs with rst := c.rst }
  mem := b.mem.next (b.memInputs c)
  pmemGranted := fun bank => !c.rst && b.mem.dmaPmemWrGnt (b.memInputs c) bank
  issued := b.issued ++ b.issuing
  dmemDone := b.dmemDone ++ b.dmemWrites
  pmemDone := b.pmemDone ++ b.pmemWrites

/-- Out of reset with packets to come. -/
structure Start (ps : List (DmaWrite.Pkt (DmaWritePath.dma M))) : Prop where
  dma : b.dma.Start ps
  wrReg : b.wrReg.Fresh
  mem : b.mem.Fresh
  pmemGranted : ∀ bank, b.pmemGranted bank = false
  issued : b.issued = []
  dmemDone : b.dmemDone = []
  pmemDone : b.pmemDone = []

/-- A packet that has a header to be stored is for a slot in the packet memory. -/
def InSlot : Prop :=
  c.dmaRst = false → b.dma.accepts (b.dmaCycle c) = true →
    (b.dma.inputs (b.dmaCycle c)).sAxis.side.hdrEn = true →
      isPmem (b.dma.inputs (b.dmaCycle c)).sAxis.side.wrBaseAddr = true
deriving Decidable

end Bench

/-! ## Where the headers go -/

section Header
variable {r : DmaWrite.Regs (dma M)} {i : DmaWrite.Inputs (dma M)}

/-- The header enable is on only while the address is in a slot of the packet memory. -/
structure HeaderInSlot (r : DmaWrite.Regs (dma M)) : Prop where
  first : r.wrFirstPkt = true → r.wrDataEn = true
  inPmem : r.hdrEnR = true → isPmem (DmaWrite.wrAddr r) = true

/-- The memory an address is for is in its bits from 24 on. -/
theorem isPmem_congr {a a' : BitVec 26} (h : a.toNat / 2 ^ 24 = a'.toNat / 2 ^ 24) :
    isPmem a = isPmem a' := by
  have hbit : ∀ k, a.getLsbD (24 + k) = a'.getLsbD (24 + k) := by
    intro k
    have hk := congrArg (Nat.testBit · k) h
    simp only [Nat.testBit_div_two_pow] at hk
    rw [Nat.add_comm]
    exact hk
  unfold isPmem
  rw [hbit 0, hbit 1]

/-- Adding one word does not leave a block of which the address is not in the last word. -/
theorem add_div_of_not_full {x m h : Nat} (hmh : m ≤ h)
    (hne : x / 2 ^ m % 2 ^ (h - m) ≠ 2 ^ (h - m) - 1) : (x + 2 ^ m) / 2 ^ h = x / 2 ^ h := by
  have hpos : 0 < 2 ^ (h - m) := Nat.two_pow_pos _
  have hlt : x / 2 ^ m % 2 ^ (h - m) + 1 < 2 ^ (h - m) := by
    omega
  have hpow : 2 ^ h = 2 ^ m * 2 ^ (h - m) := by rw [← Nat.pow_add, Nat.add_sub_cancel' hmh]
  rw [hpow, ← Nat.div_div_eq_div_mul, ← Nat.div_div_eq_div_mul,
    Nat.add_div_right _ (Nat.two_pow_pos m)]
  have hq := Nat.div_add_mod (x / 2 ^ m) (2 ^ (h - m))
  generalize x / 2 ^ m = q at hlt hq ⊢
  rw [← hq, Nat.add_assoc, Nat.mul_add_div hpos, Nat.mul_add_div hpos,
    Nat.div_eq_of_lt hlt, Nat.div_eq_of_lt (Nat.lt_of_succ_lt hlt)]

theorem isPmem_align (addr : BitVec 26) :
    isPmem ((addr >>> M.lineBits) <<< M.lineBits) = isPmem addr := by
  have hlt := M.lineBits_lt_hdrAddrBits
  have hle := M.hdrAddrBits_le
  apply isPmem_congr
  have hdown : addr.toNat / 2 ^ M.lineBits * 2 ^ M.lineBits ≤ addr.toNat :=
    Nat.div_mul_le_self _ _
  have hpow : 2 ^ 24 = 2 ^ M.lineBits * 2 ^ (24 - M.lineBits) := by
    rw [← Nat.pow_add, Nat.add_sub_cancel' (by omega)]
  rw [BitVec.toNat_shiftLeft, BitVec.toNat_ushiftRight, Nat.shiftRight_eq_div_pow,
    Nat.shiftLeft_eq, Nat.mod_eq_of_lt (Nat.lt_of_le_of_lt hdown addr.isLt), hpow,
    ← Nat.div_div_eq_div_mul, ← Nat.div_div_eq_div_mul,
    Nat.mul_div_cancel _ (Nat.two_pow_pos _)]

/-- A write whose address is not in the last word of the header region does not take the
next one out of the packet memory. -/
theorem isPmem_add (addr : BitVec 26)
    (hne : addr.extractLsb' M.lineBits (M.hdrAddrBits - M.lineBits) ≠ BitVec.allOnes _) :
    isPmem (addr + BitVec.ofNat 26 (2 ^ M.lineBits)) = isPmem addr := by
  have hlt := M.lineBits_lt_hdrAddrBits
  have hle := M.hdrAddrBits_le
  have hfield : addr.toNat / 2 ^ M.lineBits % 2 ^ (M.hdrAddrBits - M.lineBits) ≠
      2 ^ (M.hdrAddrBits - M.lineBits) - 1 := by
    intro heq
    apply hne
    apply BitVec.eq_of_toNat_eq
    rw [BitVec.extractLsb'_toNat, Nat.shiftRight_eq_div_pow, heq, BitVec.toNat_allOnes]
  have hblock := add_div_of_not_full hlt.le hfield
  have hpow : 2 ^ 24 = 2 ^ M.hdrAddrBits * 2 ^ (24 - M.hdrAddrBits) := by
    rw [← Nat.pow_add, Nat.add_sub_cancel' hle]
  have hhigh : (addr.toNat + 2 ^ M.lineBits) / 2 ^ 24 = addr.toNat / 2 ^ 24 := by
    rw [hpow, ← Nat.div_div_eq_div_mul, ← Nat.div_div_eq_div_mul, hblock]
  have hsum : addr.toNat + 2 ^ M.lineBits < 2 ^ 26 := by
    omega
  apply isPmem_congr
  rw [BitVec.toNat_add, BitVec.toNat_ofNat, Nat.mod_eq_of_lt (a := 2 ^ M.lineBits) (by omega),
    Nat.mod_eq_of_lt hsum, hhigh]

/-- One cycle keeps the header writes in their slot. -/
theorem HeaderInSlot.next (h : HeaderInSlot r)
    (hslot : DmaWrite.accepts r i = true → i.sAxis.side.hdrEn = true →
      isPmem i.sAxis.side.wrBaseAddr = true) : HeaderInSlot (DmaWrite.next r i) := by
  have hlatch : DmaWrite.latchInfo r i = true → DmaWrite.accepts r i = true :=
    fun hl => (Bool.and_eq_true_iff.mp hl).2
  constructor
  · intro hfirst
    change (DmaWrite.accepts r i || _ || (r.wrDataEn && !i.memWrReady)) = true
    rcases Bool.or_eq_true_iff.mp hfirst with hl | hstay
    · simp [hlatch hl]
    · obtain ⟨hf, hready⟩ := Bool.and_eq_true_iff.mp hstay
      simp [h.first hf, hready]
  · intro hen
    change DmaWrite.nextHdrEn r i = true at hen
    unfold DmaWrite.nextHdrEn at hen
    cases hl : DmaWrite.latchInfo r i with
    | true =>
      -- the first word of a packet
      rw [hl, if_pos rfl] at hen
      have hpmem := hslot (hlatch hl) hen
      simp only [DmaWrite.wrAddr, DmaWrite.wrAlignedAddr, DmaWrite.next, hl, Bool.true_or, if_true]
      rw [isPmem_align]
      exact hpmem
    | false =>
      rw [hl, if_neg Bool.false_ne_true] at hen
      cases hw : DmaWrite.writes r i with
      | true =>
        -- a write that is not the last of the header region
        rw [hw, Bool.true_and] at hen
        obtain ⟨hne, hhdr⟩ : ¬ _ ∧ r.hdrEnR = true := by simpa using hen
        have hready := (Bool.and_eq_true_iff.mp hw).2
        simp only [DmaWrite.wrAddr, DmaWrite.next, hl, hready, hw, Bool.false_or, Bool.not_true,
          Bool.and_false, if_true, Bool.false_eq_true, if_false]
        exact (isPmem_add _ hne).trans (h.inPmem hhdr)
      | false =>
        rw [hw, Bool.false_and, if_neg Bool.false_ne_true] at hen
        have haddr : DmaWrite.wrAddr (DmaWrite.next r i) = DmaWrite.wrAddr r := by
          cases hf : r.wrFirstPkt with
          | false => simp [DmaWrite.wrAddr, DmaWrite.next, hl, hw, hf]
          | true =>
            have hready : i.memWrReady = false := by
              simpa [DmaWrite.writes, h.first hf] using hw
            simp [DmaWrite.wrAddr, DmaWrite.wrAlignedAddr, DmaWrite.next, hl, hf, hready]
        rw [haddr]
        exact h.inPmem hen

/-- In reset `axis_dma` has no header enable. -/
theorem headerInSlot_resetRegs : HeaderInSlot (resetRegs r) :=
  ⟨fun h => absurd h Bool.false_ne_true, fun h => absurd h Bool.false_ne_true⟩

end Header

/-! ## The two queues -/

section Split
variable {b : Bench M} (c : Cycle M)

/-- The write that leaves the skid buffer. -/
def Bench.passing (b : Bench M) : List (WrCmd M) :=
  if b.wrReg.doutValid 2 b.regInputs && b.regInputs.doutReady then [b.wrReg.dout 2 b.regInputs]
  else []

/-- What holds of the skid buffer and the writes it holds. -/
structure Qualified (b : Bench M) : Prop where
  /-- An empty skid buffer does not show a header enable. -/
  shown : b.wrReg.nEmpty = false → b.wrReg.doutReg.hdrEn = false
  settled : b.wrReg.nFull = false → b.wrReg.nEmpty = false → b.mem.dmaCmdWrReady = false
  headers : HeaderInSlot b.dma.regs
  inPmem : ∀ x ∈ b.wrReg.contents 2, x.hdrEn = true → isPmem x.addr = true

/-- **The header enable is acted on with a valid write only.** -/
theorem Qualified.valid_of_hdrEn (h : Qualified b)
    (hen : (b.memInputs c).dmaCmdWr.hdrEn = true) : (b.memInputs c).dmaCmdWrEn = true := by
  by_contra hvalid
  have hempty : b.wrReg.nEmpty = false := Bool.eq_false_of_not_eq_true hvalid
  have hlow := h.shown hempty
  exact absurd (hlow.symm.trans hen) (by simp)

/-- The data memory's queue takes what the write that leaves the skid buffer is to do
there. -/
theorem Qualified.dmem_enque (h : Qualified b) :
    (if b.mem.dmaDmemWrFifo.enque (b.mem.dmemWrInputs (b.memInputs c)) then
      [(b.mem.dmemWrInputs (b.memInputs c)).din] else []) = b.passing.flatMap dmemLines := by
  have hvalid := h.valid_of_hdrEn c
  have hpass : b.passing = if (b.memInputs c).dmaCmdWrEn && b.mem.dmaCmdWrReady then
      [(b.memInputs c).dmaCmdWr] else [] := rfl
  have henque : b.mem.dmaDmemWrFifo.enque (b.mem.dmemWrInputs (b.memInputs c)) =
      (dmaDmemWrEn (b.memInputs c) && b.mem.dmaPmemWrFifo.dinReady &&
        b.mem.dmaDmemWrFifo.dinReady) := rfl
  have hpmem : (b.memInputs c).dmaCmdWr.hdrEn = true →
      isPmem (b.memInputs c).dmaCmdWr.addr = true := by
    intro hen
    obtain ⟨rest, hrest⟩ := PipeRegister.contents_of_nEmpty (s := b.wrReg) (by decide : 1 < 2)
      (hvalid hen)
    exact h.inPmem b.wrReg.doutReg (by simp [hrest]) hen
  have hnarrow : ((b.memInputs c).dmaCmdWr.addr.setWidth 25).setWidth M.dmemAw =
      (b.memInputs c).dmaCmdWr.addr.setWidth M.dmemAw := by
    have hle := M.dmemAw_le
    exact BitVec.setWidth_setWidth_of_le _ (by omega)
  rw [hpass, henque]
  unfold dmaCmdWrReady dmaDmemWrEn
  cases hen : (b.memInputs c).dmaCmdWr.hdrEn with
  | true =>
    have hother := not_isDmem_of_isPmem (hpmem hen)
    rw [hvalid hen, Bool.or_true, Bool.true_and, Bool.true_and]
    split
    · simp [dmemWrInputs, dmaDmemWrAddr, dmemLines, hen, hother]
    · rfl
  | false =>
    cases hmem : isDmem (b.memInputs c).dmaCmdWr.addr with
    | true =>
      rw [Bool.or_false, Bool.true_and, Bool.and_assoc]
      split
      · simp [dmemWrInputs, dmaDmemWrAddr, dmemLines, hen, hmem, hnarrow]
      · rfl
    | false =>
      rw [Bool.or_false, Bool.false_and, Bool.false_and, Bool.false_and,
        if_neg Bool.false_ne_true]
      split
      · simp [dmemLines, hen, hmem]
      · rfl

/-- The packet memory's queue takes what the write that leaves the skid buffer is to do
there. -/
theorem pmem_enque :
    (if b.mem.dmaPmemWrFifo.enque (b.mem.pmemWrInputs (b.memInputs c)) then
      [(b.mem.pmemWrInputs (b.memInputs c)).din] else []) = b.passing.flatMap pmemLines := by
  have hpass : b.passing = if (b.memInputs c).dmaCmdWrEn && b.mem.dmaCmdWrReady then
      [(b.memInputs c).dmaCmdWr] else [] := rfl
  have henque : b.mem.dmaPmemWrFifo.enque (b.mem.pmemWrInputs (b.memInputs c)) =
      (isPmem (b.memInputs c).dmaCmdWr.addr && (b.memInputs c).dmaCmdWrEn &&
        b.mem.dmaDmemWrFifo.dinReady && b.mem.dmaPmemWrFifo.dinReady) := rfl
  rw [hpass, henque]
  unfold dmaCmdWrReady
  cases hmem : isPmem (b.memInputs c).dmaCmdWr.addr with
  | true =>
    rw [Bool.true_and, Bool.and_assoc, Bool.and_comm b.mem.dmaDmemWrFifo.dinReady]
    split
    · simp [pmemWrInputs, pmemLines, hmem]
    · rfl
  | false =>
    rw [Bool.false_and, Bool.false_and, Bool.false_and, if_neg Bool.false_ne_true]
    split
    · simp [pmemLines, hmem]
    · rfl

/-- Of the writes at the two ports, at most the one of the bank of the head. -/
theorem filterMap_banks {aw : Nat} {fifo : BasicFifo 2 (LineCmd M aw)}
    {inputs : BasicFifo.Inputs (LineCmd M aw)} {owned gnt : Bool → Bool} {owner : Port M aw}
    {access : Bool → Port M aw} (h : WritesExact fifo inputs owned owner access)
    (hgnt : ∀ bank, gnt bank =
      (onBank M bank fifo.dout.addr && (fifo.doutValid && !owned bank))) :
    ([false, true].filterMap fun bank =>
      if gnt bank && (access bank).en then some (access bank).line else none) =
      if fifo.deque inputs then [fifo.dout] else [] := by
  have hmade := h.made (fifo.dout.addr.getLsbD M.lineBits)
  rw [onBank_self, Bool.and_true] at hmade
  have hdeque := h.prompt
  have hline : fifo.dout.port.line = fifo.dout := rfl
  have hen : fifo.dout.port.en = true := rfl
  simp only [List.filterMap_cons, List.filterMap_nil, hgnt]
  generalize hbank : fifo.dout.addr.getLsbD M.lineBits = bank at hmade hdeque
  cases hd : fifo.deque inputs with
  | true =>
    obtain ⟨howned, haccess⟩ := hmade hd
    have hvalid : fifo.doutValid = true := by
      rw [hd] at hdeque
      exact (Bool.and_eq_true_iff.mp hdeque.symm).1
    cases bank <;> simp [onBank, hbank, howned, hvalid, haccess, hline, hen]
  | false =>
    rw [hd] at hdeque
    cases bank <;> simp [onBank, hbank, ← hdeque]

end Split

/-! ## Runs -/

/-- **Every write issued is done, queued, or in the skid buffer**, in this order. -/
structure Accounted (b : Bench M) : Prop where
  qualified : Qualified b
  ports : OwnBanks b.mem.pmemPort
  dmemFifo : b.mem.dmaDmemWrFifo.Valid
  pmemFifo : b.mem.dmaPmemWrFifo.Valid
  dmem : b.issued.flatMap dmemLines =
    b.dmemDone ++ (b.mem.dmaDmemWrFifo.contents ++ (b.wrReg.contents 2).flatMap dmemLines)
  pmem : b.issued.flatMap pmemLines = b.pmemDone ++ b.pmemWrites ++
    (b.mem.dmaPmemWrFifo.contents ++ (b.wrReg.contents 2).flatMap pmemLines)

section Step
variable {b : Bench M} (c : Cycle M)

theorem Start.accounted {ps : List (DmaWrite.Pkt (dma M))} (h : b.Start ps)
    (hstale : b.wrReg.doutReg.hdrEn = false) : Accounted b := by
  have hempty : b.wrReg.contents 2 = [] := h.wrReg.contents_eq
  have hready : b.mem.dmaDmemWrFifo.dinReady = false := h.mem.dmaDmemWrFifo.2.2.1
  constructor
  · constructor
    · exact fun _ => hstale
    · intro _ _
      simp [dmaCmdWrReady, hready]
    · refine ⟨?_, ?_⟩
      · simp [h.dma.wrFirstPkt]
      · simp [h.dma.hdrEnR]
    · simp [hempty]
  · exact fun bank hen => absurd ((h.mem.pmemPort bank).symm.trans hen) Bool.false_ne_true
  · exact h.mem.dmaDmemWrFifo.valid
  · exact h.mem.dmaPmemWrFifo.valid
  · simp [h.issued, h.dmemDone, h.mem.dmaDmemWrFifo.contents_eq, hempty]
  · simp [h.issued, h.pmemDone, h.mem.dmaPmemWrFifo.contents_eq, hempty, Bench.pmemWrites,
      h.pmemGranted]

/-- The skid buffer out of reset. -/
theorem wrReg_step (b : Bench M) (hrst : c.rst = false) :
    (b.step c).wrReg = b.wrReg.next 2 b.regInputs := by
  unfold Bench.step
  rw [hrst]
  rfl

/-- The skid buffer in a cycle. -/
theorem wrReg_conservation (b : Bench M) (hrst : c.rst = false) :
    b.wrReg.contents 2 ++ b.issuing = b.passing ++ (b.step c).wrReg.contents 2 := by
  rw [wrReg_step c b hrst]
  exact PipeRegister.conservation (s := b.wrReg) (i := b.regInputs) (by intro h; simp at h) rfl

theorem HeaderInSlot.step (h : HeaderInSlot b.dma.regs) (hc : b.InSlot c) :
    HeaderInSlot (b.step c).dma.regs := by
  change HeaderInSlot (b.nextDma c).regs
  unfold Bench.nextDma
  cases hd : c.dmaRst with
  | true => exact headerInSlot_resetRegs
  | false => exact h.next (hc hd)

theorem Qualified.step (h : Qualified b) (hrst : c.rst = false) (hc : b.InSlot c) :
    Qualified (b.step c) := by
  have hreg := wrReg_step c b hrst
  constructor
  · intro hempty
    rw [hreg] at hempty ⊢
    cases hfull : b.wrReg.nFull with
    | true =>
      -- the buffer ran empty, so that it shows a write that was not on offer
      obtain ⟨hvalid, hdout⟩ := PipeRegister.doutReg_of_empty_next (s := b.wrReg)
        (i := b.regInputs) (by decide : 1 < 2) rfl hfull hempty
      change b.dma.regs.wrDataEn = false at hvalid
      rw [hdout]
      simp [Bench.regInputs, cmd, DmaWrite.memHdrWrEn, hvalid]
    | false =>
      have hold : b.wrReg.nEmpty = false := by
        simpa [PipeRegister.next, PipeRegister.nextSkid, PipeRegister.skidFlags, hfull,
          Bench.regInputs] using hempty
      rw [PipeRegister.doutReg_of_fresh (by decide) hfull (h.settled hfull hold)]
      exact h.shown hold
  · intro hfull hempty
    rw [hreg] at hfull hempty
    have hroom := PipeRegister.nFull_next_of_empty (s := b.wrReg) (i := b.regInputs)
      (by decide : 1 < 2) rfl hempty
    exact absurd (hroom.symm.trans hfull) (by simp)
  · exact h.headers.step c hc
  · intro x hx
    have hmem : x ∈ b.wrReg.contents 2 ++ b.issuing := by
      rw [wrReg_conservation c b hrst]
      exact List.mem_append_right _ hx
    rcases List.mem_append.mp hmem with hold | hnew
    · exact h.inPmem x hold
    · unfold Bench.issuing at hnew
      split at hnew
      · obtain rfl := List.mem_singleton.mp hnew
        intro hen
        exact h.headers.inPmem (Bool.and_eq_true_iff.mp hen).1
      · exact absurd hnew List.not_mem_nil

/-- **One cycle accounts for every write.** -/
theorem Accounted.step (h : Accounted b) (hrst : c.rst = false) (hc : b.InSlot c) :
    Accounted (b.step c) := by
  have hpipe := wrReg_conservation c b hrst
  have hreset : (c.rst || false) = false := (Bool.or_false _).trans hrst
  have hdmem := b.mem.dmaDmemWrFifo.conservation (i := b.mem.dmemWrInputs (b.memInputs c))
    h.dmemFifo hreset
  have hpmem := b.mem.dmaPmemWrFifo.conservation (i := b.mem.pmemWrInputs (b.memInputs c))
    h.pmemFifo hreset
  rw [h.qualified.dmem_enque c] at hdmem
  rw [pmem_enque c] at hpmem
  have hdmemWrites : b.dmemWrites = if b.mem.dmaDmemWrFifo.deque
      (b.mem.dmemWrInputs (b.memInputs c)) then [b.mem.dmaDmemWrFifo.dout] else [] :=
    filterMap_banks (b.mem.dmem_writesExact (b.memInputs c)) b.mem.dmaDmemWrGnt_eq
  have hgnt : ∀ bank, (b.step c).pmemGranted bank = b.mem.dmaPmemWrGnt (b.memInputs c) bank :=
    fun bank => by simp [Bench.step, hrst]
  have hpmemWrites : (b.step c).pmemWrites = if b.mem.dmaPmemWrFifo.deque
      (b.mem.pmemWrInputs (b.memInputs c)) then [b.mem.dmaPmemWrFifo.dout] else [] :=
    filterMap_banks (b.mem.pmem_writesExact (b.memInputs c) hrst) fun bank =>
      (hgnt bank).trans (b.mem.dmaPmemWrGnt_eq (b.memInputs c) bank)
  rw [← hdmemWrites] at hdmem
  rw [← hpmemWrites] at hpmem
  constructor
  · exact h.qualified.step c hrst hc
  · exact b.mem.ownBanks_nextPmemPort _
  · exact h.dmemFifo.next (by decide) (b.mem.dmemWrInputs (b.memInputs c))
  · exact h.pmemFifo.next (by decide) (b.mem.pmemWrInputs (b.memInputs c))
  · have hlines := congrArg (List.flatMap dmemLines) hpipe
    rw [List.flatMap_append, List.flatMap_append] at hlines
    change (b.issued ++ b.issuing).flatMap dmemLines = b.dmemDone ++ b.dmemWrites ++ _
    rw [List.flatMap_append, h.dmem, List.append_assoc, append_handover hdmem hlines,
      List.append_assoc]
    rfl
  · have hlines := congrArg (List.flatMap pmemLines) hpipe
    rw [List.flatMap_append, List.flatMap_append] at hlines
    change (b.issued ++ b.issuing).flatMap pmemLines =
      b.pmemDone ++ b.pmemWrites ++ (b.step c).pmemWrites ++ _
    rw [List.flatMap_append, h.pmem, List.append_assoc, append_handover hpmem hlines]
    simp only [List.append_assoc]
    rfl

end Step

/-- What holds of the writes of the DMA, whatever comes next. -/
structure Exact (b : Bench M) : Prop where
  /-- The writes made at the ports of the data memory, followed by those in its queue and in the
  skid buffer, are what the writes issued are to do there, at their own addresses and at
  their header addresses, in the order of issue. -/
  dmem : b.issued.flatMap dmemLines = b.dmemDone ++
    (b.mem.dmaDmemWrFifo.contents ++ (b.wrReg.contents 2).flatMap dmemLines)
  /-- And so for the packet memory. -/
  pmem : b.issued.flatMap pmemLines = b.pmemDone ++ b.pmemWrites ++
    (b.mem.dmaPmemWrFifo.contents ++ (b.wrReg.contents 2).flatMap pmemLines)
  /-- The header enable reaches `mem_sys` with `dma_cmd_wr_en` only. -/
  hdrEn : ∀ c, (b.memInputs c).dmaCmdWr.hdrEn = true → (b.memInputs c).dmaCmdWrEn = true
  /-- A memory makes a queued write exactly when it leaves the queue, and never at a port that a
  broadcast message or the core has. -/
  dmemPort : ∀ c, WritesExact b.mem.dmaDmemWrFifo (b.mem.dmemWrInputs (b.memInputs c))
    b.mem.bcOwns b.mem.bcPort b.mem.dmaDmemPort
  pmemPort : ∀ c, c.rst = false →
    WritesExact b.mem.dmaPmemWrFifo (b.mem.pmemWrInputs (b.memInputs c))
      (coreOwns (b.memInputs c)) (corePort (b.memInputs c)) (b.step c).mem.pmemPort
  /-- The accesses at the ports change the bytes at their addresses and no others. -/
  stores : ∀ c, Stores b.mem (b.memInputs c)

/-- **The writes of the DMA are atomic and exact.**  If the header enable in the skid buffer
is low after the reset, and every packet with a header is for a slot in the packet memory,
then they are exact after any number of cycles, whatever packets come, whenever `axis_dma` is
reset alone, and however the core, the broadcast messages and the reads delay the writes. -/
theorem writes_exact {ps : List (DmaWrite.Pkt (dma M))} {b : Bench M} (hstart : b.Start ps)
    (hstale : b.wrReg.doutReg.hdrEn = false) {cycles : List (Cycle M)}
    (hc : Meets Bench.step (fun b c => c.rst = false ∧ b.InSlot c) b cycles) :
    Exact (run Bench.step b cycles) := by
  have haccounted : Accounted (run Bench.step b cycles) :=
    run_invariant (P := Accounted) (fun _ c hb hcyc => hb.step c hcyc.1 hcyc.2)
      (Start.accounted hstart hstale) hc
  constructor
  · exact haccounted.dmem
  · exact haccounted.pmem
  · exact haccounted.qualified.valid_of_hdrEn
  · exact fun _ => dmem_writesExact _ _
  · exact fun c => pmem_writesExact _ ((run Bench.step b cycles).memInputs c)
  · exact fun _ => stores_of_ownBanks _ _ haccounted.ports

/-! ## A reset in the middle of a header -/

/-- The sizes of the boards: lines of 16 bytes, a packet memory of eight blocks. -/
def board : MemConfig :=
  { BroadcastRegion.board with
    pmemAw := 20
    selBits := 3
    selBits_le := by decide
    addPmemRdReg := false
    lenWidth := 16
    tagWidth := 9
    portWidth := 3
    hdrAddrBits := 7
    lineBits_le_lenWidth := by decide
    lineBits_lt_hdrAddrBits := by decide
    hdrAddrBits_le := by decide }

/-- A packet of seven words for the first slot, with a header to be stored. -/
def headerPacket : DmaWrite.Pkt (dma board) where
  body := [0xa1, 0xa2, 0xa3, 0xa4, 0xa5, 0xa6]
  final := 0xa7
  count := 16
  count_le := by decide
  side := ⟨1, 0, 0x1020010, 5, true⟩

/-- After a reset, with the packet to come. -/
def afterReset : Bench board where
  dma := ⟨default, headerPacket.beats, false, [], []⟩
  wrReg := ⟨false, false, false, false, ⟨0, false, 0, 0, 0, false⟩, ⟨0, false, 0, 0, 0, false⟩⟩
  mem := default
  pmemGranted := fun _ => false
  issued := []
  dmemDone := []
  pmemDone := []

theorem afterReset_start : afterReset.Start [headerPacket] where
  dma := ⟨rfl, rfl, rfl, rfl, rfl, rfl, rfl, rfl, rfl, rfl, rfl, rfl, rfl, rfl, rfl⟩
  wrReg := ⟨rfl, rfl, rfl, rfl⟩
  mem := .default
  pmemGranted := fun _ => rfl
  issued := rfl
  dmemDone := rfl
  pmemDone := rfl

/-- A cycle in which words are offered and nobody else uses the memories. -/
def offering : Cycle board where
  dma := ⟨true, ⟨0, 0, false, ⟨0, 0, 0, 0, false⟩⟩, ⟨0, 0, 0, 0, false⟩, false, true⟩
  mem :=
    { rst := false
      dmaCmdWrEn := false
      dmaCmdWr := ⟨0, false, 0, 0, 0, false⟩
      dmaCmdRdEn := false
      dmaCmdRdAddr := 0
      dmaRdRespReady := true
      coreDmemEn := false
      corePmemEn := false
      core := ⟨false, 0, 0, 0⟩
      bcMsgIn := ⟨0, 0, 0⟩
      bcMsgInValid := false
      acc := fun _ _ => none }
  dmaRst := false
  rst := false

/-- A write as numbers: its address, its strobe and its data. -/
def shown {aw : Nat} (x : LineCmd board aw) : Nat × Nat × Nat :=
  (x.addr.toNat, x.strb.toNat, x.data.toNat)

/-- The seven words of the header are written once to each memory. -/
theorem writes_exact_header :
    let b' := run Bench.step afterReset (List.replicate 12 offering)
    b'.dmemDone.map shown =
        [(0x290, 0xffff, 0xa1), (0x2a0, 0xffff, 0xa2), (0x2b0, 0xffff, 0xa3),
          (0x2c0, 0xffff, 0xa4), (0x2d0, 0xffff, 0xa5), (0x2e0, 0xffff, 0xa6),
          (0x2f0, 0xffff, 0xa7)] ∧
      b'.pmemDone.map shown =
        [(0x20010, 0xffff, 0xa1), (0x20020, 0xffff, 0xa2), (0x20030, 0xffff, 0xa3),
          (0x20040, 0xffff, 0xa4), (0x20050, 0xffff, 0xa5), (0x20060, 0xffff, 0xa6),
          (0x20070, 0xffff, 0xa7)] ∧
      b'.mem.dmemByte 0x2e0 = 0xa6 ∧ b'.mem.pmemByte 0x20060 = 0xa6 ∧ Exact b' :=
  ⟨by decide +kernel, by decide +kernel, by decide +kernel, by decide +kernel,
    writes_exact afterReset_start rfl (by decide +kernel)⟩

/-- The core reads a bank of the packet memory, so that the writes to it have to wait. -/
def coreReading : Cycle board :=
  { offering with mem := { offering.mem with corePmemEn := true } }

/-- A reset: that of `axis_dma` comes a cycle before that of the wrapper. -/
def resetting : List (Cycle board) :=
  [{ coreReading with dmaRst := true }, { coreReading with dmaRst := true, rst := true },
    { offering with dmaRst := true, rst := true }]

/-- **A write that was not issued.**  The core keeps a bank of the packet memory until the
queue of its writes and the skid buffer are full of a header, and a reset comes.  It clears the
queues and the flags of the skid buffer, and after it nothing is issued; yet the word of the
header that was in the data register is written to the data memory. -/
theorem header_after_reset :
    let used := run Bench.step afterReset (List.replicate 9 coreReading)
    let cleared := run Bench.step used resetting
    let b' := run Bench.step cleared ({ offering with dmaRst := true } :: List.replicate 3 offering)
    Meets Bench.step (fun b c => c.rst = false ∧ b.InSlot c) afterReset
        (List.replicate 9 coreReading) ∧
      used.mem.dmaCmdWrReady = false ∧ used.wrReg.doutReg.hdrEn = true ∧
      cleared.wrReg.Fresh ∧ cleared.mem.Fresh ∧ b'.issued = cleared.issued ∧
      b'.dmemDone.map shown =
        cleared.dmemDone.map shown ++ [(0x2e0, 0xffff, 0xa6)] := by
  refine ⟨by decide +kernel, by decide +kernel, by decide +kernel, ⟨rfl, rfl, ?_, ?_⟩,
    fresh_next _ rfl, by decide +kernel, by decide +kernel⟩
  · decide +kernel
  · decide +kernel

end Rosebud.DmaWritePath
