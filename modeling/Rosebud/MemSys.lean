import Rosebud.BasicFifo
import Rosebud.BroadcastRegion

/-! # `mem_sys`

The memories of an RPU as its DMA engine sees them: a data memory of two banks, whose first
port broadcast messages and the DMA share, and a packet memory of two banks of blocks,
whose first port the core and the DMA share.

A command of the DMA goes to the queue of the memory it is for; a write with a header goes
to the queue of the data memory as well, with its header address.  In every cycle each
bank takes the head of a queue whose address is its own, writes before reads, unless the
broadcast messages or the core have the port.  The data memory is accessed at once; for the
packet memory the access is registered first, and what is read comes back through two or
three more registers.  Answers wait in a queue for the DMA to take them.

The second ports of the memories belong to the core and to the accelerators; the answers to
the core and the instruction memory are left out.

`dmemAt` and `pmemAt` are the contents of the memories by the numbers of their lines, an
address divided by the bytes of a line.  `WritesExact` says which accesses the arbiters make,
and `Stores` what these accesses do to the bytes at their addresses.
-/
namespace Rosebud
open BroadcastRegion (Access Msg)

/-- The parameters of the memories and of the DMA engine in front of them: a packet memory
address has `pmemAw` bits, of which the top `selBits` select a block, and the first
`2 ^ hdrAddrBits` bytes of a slot are its header. -/
structure MemConfig extends BroadcastRegion.Config where
  pmemAw : Nat
  selBits : Nat
  addPmemRdReg : Bool
  lenWidth : Nat
  tagWidth : Nat
  portWidth : Nat
  hdrAddrBits : Nat
  lineBits_le_lenWidth : lineBits ≤ lenWidth
  lineBits_lt_hdrAddrBits : lineBits < hdrAddrBits
  hdrAddrBits_le : hdrAddrBits ≤ 24
  selBits_le : selBits + (lineBits + 1) ≤ pmemAw

/-- A line is shorter than the addresses of the DMA engine can tell apart. -/
theorem MemConfig.lineBits_le_addrWidth (M : MemConfig) : M.lineBits ≤ 26 := by
  have hlt := M.lineBits_lt_hdrAddrBits
  have hle := M.hdrAddrBits_le
  omega

namespace MemSys
variable {M : MemConfig}

/-- A line of a memory. -/
abbrev Word (M : MemConfig) : Type := BitVec (8 * M.strbWidth)

abbrev Strb (M : MemConfig) : Type := BitVec M.strbWidth

/-- A write of the DMA, as `axis_dma` puts it out. -/
structure WrCmd (M : MemConfig) where
  addr : BitVec 26
  hdrEn : Bool
  hdrAddr : BitVec 24
  data : Word M
  strb : Strb M
  last : Bool
deriving DecidableEq

/-- A queued write to a memory with addresses of `aw` bits. -/
structure LineCmd (M : MemConfig) (aw : Nat) where
  addr : BitVec aw
  strb : Strb M
  data : Word M
deriving DecidableEq, Inhabited

/-- The first port of a memory bank. -/
structure Port (M : MemConfig) (aw : Nat) where
  en : Bool
  addr : BitVec aw
  wen : Strb M
  data : Word M
deriving DecidableEq, Inhabited

/-- What an accelerator does at the second port of a block: an access to a line. -/
structure AccPort (M : MemConfig) where
  wen : Strb M
  line : BitVec (M.pmemAw - M.selBits - (M.lineBits + 1))
  data : Word M

/-- Which bank an address is in: `b1` is `false`, `b2` is `true`. -/
def onBank (M : MemConfig) (bank : Bool) {aw : Nat} (addr : BitVec aw) : Bool :=
  addr.getLsbD M.lineBits == bank

/-- The line of a bank of the data memory. -/
def dmemLine (addr : BitVec M.dmemAw) : BitVec M.lineAw :=
  addr.extractLsb' (M.lineBits + 1) M.lineAw

/-- The block of a bank of the packet memory, and the line in it. -/
def pmemSel (addr : BitVec M.pmemAw) : BitVec M.selBits :=
  addr.extractLsb' (M.pmemAw - M.selBits) M.selBits

def pmemLine (addr : BitVec M.pmemAw) : BitVec (M.pmemAw - M.selBits - (M.lineBits + 1)) :=
  addr.extractLsb' (M.lineBits + 1) _

/-- A line with one byte replaced. -/
def setLane (line : Word M) (k : Nat) (x : BitVec 8) : Word M :=
  (line &&& ~~~((BitVec.allOnes 8).setWidth _ <<< (8 * k))) ||| (x.setWidth _ <<< (8 * k))

/-- The loop that replaces the bytes with their strobes set. -/
def merge (old : Word M) (strb : Strb M) (data : Word M) : Word M :=
  (List.range M.strbWidth).foldl
    (fun line k => if strb.getLsbD k then setLane line k (Lanes.lane data k) else line) old

/-! ## The memories an address is for -/

def isDmem (addr : BitVec 26) : Bool := !addr.getLsbD 25 && !addr.getLsbD 24

def isPmem (addr : BitVec 26) : Bool := !addr.getLsbD 25 && addr.getLsbD 24

theorem not_isDmem_of_isPmem {addr : BitVec 26} (h : isPmem addr = true) :
    isDmem addr = false := by
  unfold isPmem at h
  unfold isDmem
  cases h24 : addr.getLsbD 24 <;> simp_all

end MemSys

open MemSys in
structure MemSys (M : MemConfig) where
  bcMsgInR : Msg M.toConfig
  bcMsgInValidR : Bool
  bcMsgInAddrRr : BitVec M.dmemAw
  bcMsgInStrbRr : Strb M
  bcMsgInDataRr : Word M
  bcMsgInValidRr : Bool
  dmaDmemWrFifo : BasicFifo 2 (LineCmd M M.dmemAw)
  dmaPmemWrFifo : BasicFifo 2 (LineCmd M M.pmemAw)
  dmaDmemRdFifo : BasicFifo 2 (BitVec M.dmemAw)
  dmaPmemRdFifo : BasicFifo 2 (BitVec M.pmemAw)
  /-- The registers before the packet memory: `pmem_en_b1`, `pmem_addr_b1` and so on. -/
  pmemPort : Bool → Port M M.pmemAw
  dmem : Bool → BitVec M.lineAw → Word M
  pmem : Bool → BitVec M.selBits → BitVec (M.pmemAw - M.selBits - (M.lineBits + 1)) → Word M
  dmaDmemRdDataB : Bool → Word M
  pmemRdDataB : Bool → BitVec M.selBits → Word M
  pmemRdDataBR : Bool → BitVec M.selBits → Word M
  pmemRdSelBR : Bool → BitVec M.selBits
  pmemRdSelBRr : Bool → BitVec M.selBits
  dmaPmemRdData : Word M
  dmaPmemRdGntR : Bool
  dmaPmemRdGntRr : Bool
  dmaPmemRdGntRrr : Bool
  dmaPmemRdGntRrrr : Bool
  dmaPmemRdBankR : Bool
  dmaPmemRdBankRr : Bool
  dmaPmemRdBankRrr : Bool
  dmaDmemRdGntR : Bool
  dmaDmemRdBankR : Bool
  dmaDmemRdRespFifo : BasicFifo 3 (Word M)
  dmaPmemRdRespFifo : BasicFifo 4 (Word M)
deriving Inhabited

namespace MemSys
variable {M : MemConfig}

structure Inputs (M : MemConfig) where
  rst : Bool
  dmaCmdWrEn : Bool
  dmaCmdWr : WrCmd M
  dmaCmdRdEn : Bool
  dmaCmdRdAddr : BitVec 26
  dmaRdRespReady : Bool
  coreDmemEn : Bool
  corePmemEn : Bool
  core : Access
  bcMsgIn : Msg M.toConfig
  bcMsgInValid : Bool
  acc : Bool → BitVec M.selBits → Option (AccPort M)

section Module
variable (s : MemSys M) (i : Inputs M)

/-! ## The queues of the commands -/

/-- `dma_cmd_hdr_wr_en` is not qualified by `dma_cmd_wr_en`. -/
def dmaDmemWrEn : Bool := (isDmem i.dmaCmdWr.addr && i.dmaCmdWrEn) || i.dmaCmdWr.hdrEn

def dmaPmemWrEn : Bool := isPmem i.dmaCmdWr.addr && i.dmaCmdWrEn

def dmaDmemRdEn : Bool := isDmem i.dmaCmdRdAddr && i.dmaCmdRdEn

def dmaPmemRdEn : Bool := isPmem i.dmaCmdRdAddr && i.dmaCmdRdEn

def dmaDmemWrAddr : BitVec 25 :=
  if i.dmaCmdWr.hdrEn then i.dmaCmdWr.hdrAddr.setWidth 25 else i.dmaCmdWr.addr.setWidth 25

def dmaCmdWrReady : Bool := s.dmaPmemWrFifo.dinReady && s.dmaDmemWrFifo.dinReady

def dmaCmdRdReady : Bool := s.dmaPmemRdFifo.dinReady && s.dmaDmemRdFifo.dinReady

/-! ## The arbiters of the banks -/

/-- A broadcast message has the port of a bank of the data memory. -/
def bcOwns (bank : Bool) : Bool := onBank M bank s.bcMsgInAddrRr && s.bcMsgInValidRr

/-- The core has the port of a bank of the packet memory. -/
def coreOwns (bank : Bool) : Bool := onBank M bank i.core.addr && i.corePmemEn

/-- The head of a queue is for a bank. -/
def dmemWrHead (bank : Bool) : Bool :=
  onBank M bank s.dmaDmemWrFifo.dout.addr && s.dmaDmemWrFifo.doutValid

def dmemRdHead (bank : Bool) : Bool :=
  onBank M bank s.dmaDmemRdFifo.dout && s.dmaDmemRdFifo.doutValid

def pmemWrHead (bank : Bool) : Bool :=
  onBank M bank s.dmaPmemWrFifo.dout.addr && s.dmaPmemWrFifo.doutValid

def pmemRdHead (bank : Bool) : Bool :=
  onBank M bank s.dmaPmemRdFifo.dout && s.dmaPmemRdFifo.doutValid

def dmaDmemWrGnt (bank : Bool) : Bool :=
  if s.bcOwns bank then false else if s.dmemWrHead bank then true else false

def dmaDmemRdGnt (bank : Bool) : Bool :=
  if s.bcOwns bank then false
  else if s.dmemWrHead bank then false
  else if s.dmemRdHead bank then true
  else false

/-- `dma_dmem_en_b1`, `dma_dmem_addr_b1`, `dma_dmem_wen_b1` and `dma_dmem_wr_data_b1`, or
those of `b2`. -/
def dmaDmemPort (bank : Bool) : Port M M.dmemAw :=
  if s.bcOwns bank then ⟨true, s.bcMsgInAddrRr, s.bcMsgInStrbRr, s.bcMsgInDataRr⟩
  else if s.dmemWrHead bank then
    ⟨true, s.dmaDmemWrFifo.dout.addr, s.dmaDmemWrFifo.dout.strb, s.dmaDmemWrFifo.dout.data⟩
  else if s.dmemRdHead bank then ⟨true, s.dmaDmemRdFifo.dout, 0, s.dmaDmemWrFifo.dout.data⟩
  else ⟨false, s.dmaDmemWrFifo.dout.addr, 0, s.dmaDmemWrFifo.dout.data⟩

def dmaPmemWrGnt (bank : Bool) : Bool :=
  if !onBank M bank i.core.addr || !i.corePmemEn then
    if s.pmemWrHead bank then true else false
  else false

def dmaPmemRdGnt (bank : Bool) : Bool :=
  if !onBank M bank i.core.addr || !i.corePmemEn then
    if s.pmemWrHead bank then false else if s.pmemRdHead bank then true else false
  else false

/-- The registers before the packet memory after the clock edge. -/
def nextPmemPort (bank : Bool) : Port M M.pmemAw :=
  let port : Port M M.pmemAw :=
    if onBank M bank i.core.addr && i.corePmemEn then
      ⟨true, i.core.addr.setWidth _, (i.core.lineWrite M.toConfig).wen,
        (i.core.lineWrite M.toConfig).data⟩
    else if s.pmemWrHead bank then
      ⟨true, s.dmaPmemWrFifo.dout.addr, s.dmaPmemWrFifo.dout.strb, s.dmaPmemWrFifo.dout.data⟩
    else if s.pmemRdHead bank then
      ⟨true, s.dmaPmemRdFifo.dout, 0, (i.core.lineWrite M.toConfig).data⟩
    else ⟨false, i.core.addr.setWidth _, 0, (i.core.lineWrite M.toConfig).data⟩
  { port with en := port.en && !i.rst }

/-! ## The memories -/

/-- A bank of the data memory: the first port, then the core's. -/
def nextDmem (bank : Bool) : BitVec M.lineAw → Word M := fun line =>
  let port := s.dmaDmemPort bank
  let store := i.core.lineWrite M.toConfig
  let first :=
    if port.en ∧ dmemLine port.addr = line then merge (s.dmem bank line) port.wen port.data
    else s.dmem bank line
  if i.coreDmemEn ∧ store.bank = bank ∧ store.line = line then merge first store.wen store.data
  else first

/-- A block of a bank of the packet memory: the first port, then an accelerator's. -/
def nextPmem (bank : Bool) (sel : BitVec M.selBits) :
    BitVec (M.pmemAw - M.selBits - (M.lineBits + 1)) → Word M := fun line =>
  let port := s.pmemPort bank
  let first :=
    if port.en ∧ pmemSel port.addr = sel ∧ pmemLine port.addr = line then
      merge (s.pmem bank sel line) port.wen port.data
    else s.pmem bank sel line
  match i.acc bank sel with
  | none => first
  | some a => if a.line = line then merge first a.wen a.data else first

/-- What the first port of a bank of the data memory has read. -/
def nextDmemRdData (bank : Bool) : Word M :=
  if (s.dmaDmemPort bank).en && s.dmaDmemRdGnt bank then
    s.dmem bank (dmemLine (s.dmaDmemPort bank).addr)
  else s.dmaDmemRdDataB bank

/-- What the first port of a block of the packet memory has read. -/
def nextPmemRdData (bank : Bool) (sel : BitVec M.selBits) : Word M :=
  let port := s.pmemPort bank
  if port.en ∧ pmemSel port.addr = sel ∧ port.wen = 0 then
    s.pmem bank sel (pmemLine port.addr)
  else s.pmemRdDataB bank sel

/-! ## The answers to the DMA -/

def pmemRdDataFin (bank : Bool) : Word M :=
  if M.addPmemRdReg then s.pmemRdDataBR bank (s.pmemRdSelBRr bank)
  else s.pmemRdDataB bank (s.pmemRdSelBR bank)

def dmaPmemRdBankFin : Bool :=
  if M.addPmemRdReg then s.dmaPmemRdBankRrr else s.dmaPmemRdBankRr

def dmaPmemRdGntFin : Bool :=
  if M.addPmemRdReg then s.dmaPmemRdGntRrrr else s.dmaPmemRdGntRrr

def dmaDmemRdData : Word M := s.dmaDmemRdDataB s.dmaDmemRdBankR

def dmaRdRespValid : Bool := s.dmaPmemRdRespFifo.doutValid || s.dmaDmemRdRespFifo.doutValid

def dmaRdRespData : Word M :=
  if s.dmaPmemRdRespFifo.doutValid then s.dmaPmemRdRespFifo.dout else s.dmaDmemRdRespFifo.dout

/-! ## The clock edge -/

def dmemWrInputs : BasicFifo.Inputs (LineCmd M M.dmemAw) where
  rst := i.rst
  clear := false
  dinValid := dmaDmemWrEn i && s.dmaPmemWrFifo.dinReady
  din := ⟨(dmaDmemWrAddr i).setWidth _, i.dmaCmdWr.strb, i.dmaCmdWr.data⟩
  doutReady := s.dmaDmemWrGnt false || s.dmaDmemWrGnt true

def pmemWrInputs : BasicFifo.Inputs (LineCmd M M.pmemAw) where
  rst := i.rst
  clear := false
  dinValid := dmaPmemWrEn i && s.dmaDmemWrFifo.dinReady
  din := ⟨i.dmaCmdWr.addr.setWidth _, i.dmaCmdWr.strb, i.dmaCmdWr.data⟩
  doutReady := s.dmaPmemWrGnt i false || s.dmaPmemWrGnt i true

def dmemRdInputs : BasicFifo.Inputs (BitVec M.dmemAw) where
  rst := i.rst
  clear := false
  dinValid := dmaDmemRdEn i
  din := i.dmaCmdRdAddr.setWidth _
  doutReady := s.dmaDmemRdGnt false || s.dmaDmemRdGnt true

def pmemRdInputs : BasicFifo.Inputs (BitVec M.pmemAw) where
  rst := i.rst
  clear := false
  dinValid := dmaPmemRdEn i
  din := i.dmaCmdRdAddr.setWidth _
  doutReady := s.dmaPmemRdGnt i false || s.dmaPmemRdGnt i true

def dmemRespInputs : BasicFifo.Inputs (Word M) where
  rst := i.rst
  clear := false
  dinValid := s.dmaDmemRdGntR
  din := s.dmaDmemRdData
  doutReady := i.dmaRdRespReady && !s.dmaPmemRdRespFifo.doutValid

def pmemRespInputs : BasicFifo.Inputs (Word M) where
  rst := i.rst
  clear := false
  dinValid := s.dmaPmemRdGntFin
  din := s.dmaPmemRdData
  doutReady := i.dmaRdRespReady

def next : MemSys M where
  bcMsgInR := i.bcMsgIn
  bcMsgInValidR := !i.rst && i.bcMsgInValid
  bcMsgInAddrRr := s.bcMsgInR.dmemAddr
  bcMsgInStrbRr := s.bcMsgInR.strbW
  bcMsgInDataRr := s.bcMsgInR.dataW
  bcMsgInValidRr := !i.rst && s.bcMsgInValidR
  dmaDmemWrFifo := s.dmaDmemWrFifo.next (s.dmemWrInputs i)
  dmaPmemWrFifo := s.dmaPmemWrFifo.next (s.pmemWrInputs i)
  dmaDmemRdFifo := s.dmaDmemRdFifo.next (s.dmemRdInputs i)
  dmaPmemRdFifo := s.dmaPmemRdFifo.next (s.pmemRdInputs i)
  pmemPort := s.nextPmemPort i
  dmem := s.nextDmem i
  pmem := s.nextPmem i
  dmaDmemRdDataB := s.nextDmemRdData
  pmemRdDataB := s.nextPmemRdData
  pmemRdDataBR := s.pmemRdDataB
  pmemRdSelBR := fun bank => pmemSel (s.pmemPort bank).addr
  pmemRdSelBRr := s.pmemRdSelBR
  dmaPmemRdData := s.pmemRdDataFin s.dmaPmemRdBankFin
  dmaPmemRdGntR := !i.rst && (s.dmaPmemRdGnt i false || s.dmaPmemRdGnt i true)
  dmaPmemRdGntRr := !i.rst && s.dmaPmemRdGntR
  dmaPmemRdGntRrr := !i.rst && s.dmaPmemRdGntRr
  dmaPmemRdGntRrrr := !i.rst && s.dmaPmemRdGntRrr
  -- the first of the three has no reset
  dmaPmemRdBankR := if i.rst then s.dmaPmemRdBankR else s.dmaPmemRdGnt i true
  dmaPmemRdBankRr := !i.rst && s.dmaPmemRdBankR
  dmaPmemRdBankRrr := !i.rst && s.dmaPmemRdBankRr
  dmaDmemRdGntR := !i.rst && (s.dmaDmemRdGnt false || s.dmaDmemRdGnt true)
  dmaDmemRdBankR := !i.rst && s.dmaDmemRdGnt true
  dmaDmemRdRespFifo := s.dmaDmemRdRespFifo.next (s.dmemRespInputs i)
  dmaPmemRdRespFifo := s.dmaPmemRdRespFifo.next (s.pmemRespInputs i)

end Module

/-- The registers a reset leaves; memories, addresses and data hold anything. -/
structure Fresh (s : MemSys M) : Prop where
  bcMsgInValidR : s.bcMsgInValidR = false
  bcMsgInValidRr : s.bcMsgInValidRr = false
  dmaDmemWrFifo : s.dmaDmemWrFifo.Fresh
  dmaPmemWrFifo : s.dmaPmemWrFifo.Fresh
  dmaDmemRdFifo : s.dmaDmemRdFifo.Fresh
  dmaPmemRdFifo : s.dmaPmemRdFifo.Fresh
  pmemPort : ∀ bank, (s.pmemPort bank).en = false
  dmaPmemRdGnt : s.dmaPmemRdGntR = false ∧ s.dmaPmemRdGntRr = false ∧
    s.dmaPmemRdGntRrr = false ∧ s.dmaPmemRdGntRrrr = false
  dmaDmemRdGntR : s.dmaDmemRdGntR = false
  dmaDmemRdRespFifo : s.dmaDmemRdRespFifo.Fresh
  dmaPmemRdRespFifo : s.dmaPmemRdRespFifo.Fresh

protected theorem Fresh.default : (default : MemSys M).Fresh :=
  ⟨rfl, rfl, .default, .default, .default, .default, fun _ => rfl, ⟨rfl, rfl, rfl, rfl⟩, rfl,
    .default, .default⟩

theorem fresh_next (s : MemSys M) {i : Inputs M} (h : i.rst = true) : (s.next i).Fresh where
  bcMsgInValidR := by simp [next, h]
  bcMsgInValidRr := by simp [next, h]
  dmaDmemWrFifo := BasicFifo.fresh_next_of_reset _ (by simp [dmemWrInputs, h])
  dmaPmemWrFifo := BasicFifo.fresh_next_of_reset _ (by simp [pmemWrInputs, h])
  dmaDmemRdFifo := BasicFifo.fresh_next_of_reset _ (by simp [dmemRdInputs, h])
  dmaPmemRdFifo := BasicFifo.fresh_next_of_reset _ (by simp [pmemRdInputs, h])
  pmemPort := by simp [next, nextPmemPort, h]
  dmaPmemRdGnt := by simp [next, h]
  dmaDmemRdGntR := by simp [next, h]
  dmaDmemRdRespFifo := BasicFifo.fresh_next_of_reset _ (by simp [dmemRespInputs, h])
  dmaPmemRdRespFifo := BasicFifo.fresh_next_of_reset _ (by simp [pmemRespInputs, h])

/-! ## The arbiters -/

/-- The access a queued write asks for, and the write a port makes. -/
def LineCmd.port {aw : Nat} (x : LineCmd M aw) : Port M aw := ⟨true, x.addr, x.strb, x.data⟩

def Port.line {aw : Nat} (x : Port M aw) : LineCmd M aw := ⟨x.addr, x.wen, x.data⟩

/-- The accesses of the other users of the shared ports. -/
def bcPort (s : MemSys M) : Port M M.dmemAw :=
  ⟨true, s.bcMsgInAddrRr, s.bcMsgInStrbRr, s.bcMsgInDataRr⟩

def corePort (i : Inputs M) : Port M M.pmemAw :=
  ⟨true, i.core.addr.setWidth _, (i.core.lineWrite M.toConfig).wen,
    (i.core.lineWrite M.toConfig).data⟩

/-- **A queued write is made exactly when it leaves its queue.**  The head of the queue
leaves it as soon as nobody else has the port of its bank (`prompt`).  The access then made
there is its own (`made`).  The port of a bank without such a write is used by its owner,
or writes nothing (`unmade`). -/
structure WritesExact {aw : Nat} (fifo : BasicFifo 2 (LineCmd M aw))
    (inputs : BasicFifo.Inputs (LineCmd M aw)) (owned : Bool → Bool) (owner : Port M aw)
    (access : Bool → Port M aw) : Prop where
  prompt : fifo.deque inputs =
    (fifo.doutValid && !owned (fifo.dout.addr.getLsbD M.lineBits))
  made : ∀ bank, (fifo.deque inputs && onBank M bank fifo.dout.addr) = true →
    owned bank = false ∧ access bank = fifo.dout.port
  unmade : ∀ bank, (fifo.deque inputs && onBank M bank fifo.dout.addr) = false →
    owned bank = true ∧ access bank = owner ∨ owned bank = false ∧ (access bank).wen = 0

section Arbiters
variable (s : MemSys M) (i : Inputs M)

theorem onBank_self {aw : Nat} (addr : BitVec aw) :
    onBank M (addr.getLsbD M.lineBits) addr = true := by
  simp [onBank]

/-- Of the two banks, the one of an address. -/
theorem or_onBank {aw : Nat} (addr : BitVec aw) (p : Bool → Bool) :
    ((onBank M false addr && p false) || (onBank M true addr && p true)) =
      p (addr.getLsbD M.lineBits) := by
  cases h : addr.getLsbD M.lineBits <;> simp [onBank, h]

theorem dmaDmemWrGnt_eq (bank : Bool) : s.dmaDmemWrGnt bank =
    (onBank M bank s.dmaDmemWrFifo.dout.addr &&
      (s.dmaDmemWrFifo.doutValid && !s.bcOwns bank)) := by
  unfold dmaDmemWrGnt dmemWrHead
  cases s.bcOwns bank <;> cases onBank M bank s.dmaDmemWrFifo.dout.addr <;>
    cases s.dmaDmemWrFifo.doutValid <;> rfl

theorem dmaPmemWrGnt_eq (bank : Bool) : s.dmaPmemWrGnt i bank =
    (onBank M bank s.dmaPmemWrFifo.dout.addr &&
      (s.dmaPmemWrFifo.doutValid && !coreOwns i bank)) := by
  unfold dmaPmemWrGnt pmemWrHead coreOwns
  cases onBank M bank i.core.addr <;> cases i.corePmemEn <;>
    cases onBank M bank s.dmaPmemWrFifo.dout.addr <;> cases s.dmaPmemWrFifo.doutValid <;> rfl

/-- An arbiter that grants the bank of the head unless it is owned, and drives the ports
accordingly. -/
theorem writesExact_of_grants {aw : Nat} {fifo : BasicFifo 2 (LineCmd M aw)}
    {inputs : BasicFifo.Inputs (LineCmd M aw)} {owned : Bool → Bool} {owner : Port M aw}
    {access : Bool → Port M aw} (gnt : Bool → Bool)
    (hready : inputs.doutReady = (gnt false || gnt true))
    (hgnt : ∀ bank, gnt bank =
      (onBank M bank fifo.dout.addr && (fifo.doutValid && !owned bank)))
    (hown : ∀ bank, owned bank = true → access bank = owner)
    (hwrite : ∀ bank, owned bank = false →
      (onBank M bank fifo.dout.addr && fifo.doutValid) = true → access bank = fifo.dout.port)
    (hother : ∀ bank, owned bank = false →
      (onBank M bank fifo.dout.addr && fifo.doutValid) = false → (access bank).wen = 0) :
    WritesExact fifo inputs owned owner access := by
  have hprompt : fifo.deque inputs =
      (fifo.doutValid && !owned (fifo.dout.addr.getLsbD M.lineBits)) := by
    unfold BasicFifo.deque
    rw [hready, hgnt, hgnt, or_onBank _ fun bank => fifo.doutValid && !owned bank]
    cases fifo.doutValid <;> rfl
  refine ⟨hprompt, ?_, ?_⟩
  · intro bank hbank
    obtain ⟨hdeque, hon⟩ := Bool.and_eq_true_iff.mp hbank
    obtain rfl : fifo.dout.addr.getLsbD M.lineBits = bank := by simpa [onBank] using hon
    rw [hprompt] at hdeque
    obtain ⟨hvalid, howned⟩ := Bool.and_eq_true_iff.mp hdeque
    rw [Bool.not_eq_true'] at howned
    exact ⟨howned, hwrite _ howned (by rw [hon, hvalid]; rfl)⟩
  · intro bank hbank
    cases howned : owned bank with
    | true => exact .inl ⟨rfl, hown bank howned⟩
    | false =>
      refine .inr ⟨rfl, hother bank howned ?_⟩
      by_contra hhead
      obtain ⟨hon, hvalid⟩ := Bool.and_eq_true_iff.mp (Bool.eq_true_of_not_eq_false hhead)
      obtain rfl : fifo.dout.addr.getLsbD M.lineBits = bank := by simpa [onBank] using hon
      rw [hprompt, hvalid, howned, hon] at hbank
      exact absurd hbank (by simp)

/-- **The data memory makes the queued writes**, in the cycle in which they leave the
queue. -/
theorem dmem_writesExact : WritesExact s.dmaDmemWrFifo (s.dmemWrInputs i) s.bcOwns s.bcPort
    s.dmaDmemPort := by
  refine writesExact_of_grants s.dmaDmemWrGnt rfl s.dmaDmemWrGnt_eq ?_ ?_ ?_
  · intro bank howns
    rw [dmaDmemPort, if_pos howns, bcPort]
  · intro bank howns hhead
    rw [dmaDmemPort, howns, if_neg Bool.false_ne_true, dmemWrHead, if_pos hhead, LineCmd.port]
  · intro bank howns hhead
    rw [dmaDmemPort, howns, if_neg Bool.false_ne_true, dmemWrHead, hhead,
      if_neg Bool.false_ne_true]
    split <;> rfl

/-- **The packet memory makes the queued writes**: the access is in the registers before it
in the cycle after the one in which the write leaves the queue. -/
theorem pmem_writesExact (hrst : i.rst = false) : WritesExact s.dmaPmemWrFifo
    (s.pmemWrInputs i) (coreOwns i) (corePort i) (s.nextPmemPort i) := by
  refine writesExact_of_grants (s.dmaPmemWrGnt i) rfl (s.dmaPmemWrGnt_eq i) ?_ ?_ ?_
  · intro bank howns
    unfold coreOwns at howns
    simp [nextPmemPort, howns, corePort, hrst]
  · intro bank howns hhead
    unfold coreOwns at howns
    simp only [nextPmemPort, howns, pmemWrHead, hhead, LineCmd.port, hrst]
    rfl
  · intro bank howns hhead
    unfold coreOwns at howns
    simp only [nextPmemPort, howns, pmemWrHead, hhead]
    rw [if_neg Bool.false_ne_true, if_neg Bool.false_ne_true]
    split <;> rfl

end Arbiters

/-! ## The memories by addresses -/

section Addresses
variable (s : MemSys M) (i : Inputs M)

/-- Line `n` of the data memory: the lines alternate between the banks. -/
def dmemAt (n : Nat) : Word M := s.dmem (decide (n % 2 = 1)) (BitVec.ofNat _ (n / 2))

/-- Line `n` of the packet memory: the lines alternate between the banks, and a block has so
many consecutive lines of its bank. -/
def pmemAt (n : Nat) : Word M :=
  s.pmem (decide (n % 2 = 1))
    (BitVec.ofNat _ (n / 2 / 2 ^ (M.pmemAw - M.selBits - (M.lineBits + 1))))
    (BitVec.ofNat _ (n / 2))

/-- The byte at an address. -/
def dmemByte (a : Nat) : BitVec 8 := Lanes.lane (s.dmemAt (a / M.strbWidth)) (a % M.strbWidth)

def pmemByte (a : Nat) : BitVec 8 := Lanes.lane (s.pmemAt (a / M.strbWidth)) (a % M.strbWidth)

/-- The bytes of a memory after the access of a port. -/
def Port.put {aw : Nat} (x : Port M aw) (mem : Nat → BitVec 8) (a : Nat) : BitVec 8 :=
  if x.en = true ∧ a / M.strbWidth = x.addr.toNat / M.strbWidth ∧
      x.wen.getLsbD (a % M.strbWidth) = true then
    Lanes.lane x.data (a % M.strbWidth)
  else mem a

/-- The core uses the second port for line `n` of the data memory. -/
def CoreAt (n : Nat) : Prop :=
  i.coreDmemEn = true ∧ i.core.addr.toNat % 2 ^ M.dmemAw / M.strbWidth = n

/-- An accelerator uses the second port for line `n` of the packet memory. -/
def AccAt (n : Nat) : Prop :=
  ∃ x ∈ i.acc (decide (n % 2 = 1))
    (BitVec.ofNat _ (n / 2 / 2 ^ (M.pmemAw - M.selBits - (M.lineBits + 1)))),
    x.line = BitVec.ofNat _ (n / 2)

/-- **The memories change by the accesses at their ports**, at the addresses of these, up to
the lines that the core and the accelerators use. -/
structure Stores : Prop where
  dmem : ∀ a < 2 ^ M.dmemAw, ¬ CoreAt i (a / M.strbWidth) →
    (s.next i).dmemByte a = (s.dmaDmemPort true).put ((s.dmaDmemPort false).put s.dmemByte) a
  pmem : ∀ a < 2 ^ M.pmemAw, ¬ AccAt i (a / M.strbWidth) →
    (s.next i).pmemByte a = (s.pmemPort true).put ((s.pmemPort false).put s.pmemByte) a

end Addresses

section Fields
variable {aw : Nat} (addr : BitVec aw)

theorem getLsbD_lineBits :
    addr.getLsbD M.lineBits = decide (addr.toNat / M.strbWidth % 2 = 1) :=
  Nat.testBit_eq_decide_div_mod_eq

theorem extractLsb'_line (k : Nat) : addr.extractLsb' (M.lineBits + 1) k =
    BitVec.ofNat k (addr.toNat / M.strbWidth / 2) := by
  apply BitVec.eq_of_toNat_eq
  rw [BitVec.extractLsb'_toNat, Nat.shiftRight_eq_div_pow, BitVec.toNat_ofNat, Nat.pow_succ,
    Nat.div_div_eq_div_mul]

theorem pmemSel_eq (addr : BitVec M.pmemAw) : pmemSel addr = BitVec.ofNat M.selBits
    (addr.toNat / M.strbWidth / 2 / 2 ^ (M.pmemAw - M.selBits - (M.lineBits + 1))) := by
  have hle := M.selBits_le
  have hpow : M.strbWidth * (2 * 2 ^ (M.pmemAw - M.selBits - (M.lineBits + 1))) =
      2 ^ (M.pmemAw - M.selBits) := by
    rw [← Nat.pow_succ', ← Nat.pow_add]
    congr 1
    omega
  apply BitVec.eq_of_toNat_eq
  rw [pmemSel, BitVec.extractLsb'_toNat, Nat.shiftRight_eq_div_pow, BitVec.toNat_ofNat,
    Nat.div_div_eq_div_mul, Nat.div_div_eq_div_mul, hpow]

/-- What the circuit takes for the line of an address is that line. -/
theorem dmemAt_line (s : MemSys M) (addr : BitVec M.dmemAw) :
    s.dmemAt (addr.toNat / M.strbWidth) = s.dmem (addr.getLsbD M.lineBits) (dmemLine addr) := by
  rw [dmemAt, getLsbD_lineBits, dmemLine, extractLsb'_line]

theorem pmemAt_line (s : MemSys M) (addr : BitVec M.pmemAw) :
    s.pmemAt (addr.toNat / M.strbWidth) =
      s.pmem (addr.getLsbD M.lineBits) (pmemSel addr) (pmemLine addr) := by
  rw [pmemAt, getLsbD_lineBits, pmemSel_eq, pmemLine, extractLsb'_line]

end Fields

section Bytes

/-- A strobed write replaces the bytes whose strobes are set. -/
theorem lane_merge (old data : Word M) (strb : Strb M) {k : Nat} (hk : k < M.strbWidth) :
    Lanes.lane (merge old strb data) k =
      if strb.getLsbD k then Lanes.lane data k else Lanes.lane old k := by
  have hset : ∀ (line : Word M) (j : Nat) (x : BitVec 8), Lanes.lane (setLane line j x) k =
      if j = k then x else Lanes.lane line k := by
    intro line j x
    have hput := Lanes.lane_put (m := 1) line j x hk
    by_cases hj : j = k
    · subst hj
      rw [if_pos rfl]
      rw [if_pos (by omega), Nat.sub_self, Lanes.lane_zero_of_byte] at hput
      exact hput
    · rw [if_neg hj]
      rw [if_neg (by omega)] at hput
      exact hput
  -- the first `n` rounds of the loop settle the lanes below `n`
  have hloop : ∀ n, Lanes.lane ((List.range n).foldl (fun line j =>
      if strb.getLsbD j then setLane line j (Lanes.lane data j) else line) old) k =
      if k < n ∧ strb.getLsbD k = true then Lanes.lane data k else Lanes.lane old k := by
    intro n
    induction n with
    | zero => simp
    | succ n ih =>
      rw [List.range_succ, List.foldl_append, List.foldl_cons, List.foldl_nil]
      by_cases hn : n = k
      · subst hn
        cases hs : strb.getLsbD n <;> simp [hset, ih, hs]
      · have hlt : k < n + 1 ↔ k < n := by omega
        cases hs : strb.getLsbD n <;> simp [hset, ih, hn, hlt]
  rw [merge, hloop]
  simp [hk]

/-- The ports of the banks have addresses of their banks. -/
def OwnBanks {aw : Nat} (access : Bool → Port M aw) : Prop :=
  ∀ bank, (access bank).en = true → onBank M bank (access bank).addr = true

/-- Of the two ports, only the one of the bank an address is in can reach it. -/
theorem OwnBanks.put_eq {aw : Nat} {access : Bool → Port M aw} (h : OwnBanks access)
    (mem : Nat → BitVec 8) (a : Nat) : (access true).put ((access false).put mem) a =
      (access (decide (a / M.strbWidth % 2 = 1))).put mem a := by
  have hother : ∀ bank mem, decide (a / M.strbWidth % 2 = 1) ≠ bank →
      (access bank).put mem a = mem a := by
    intro bank mem hne
    refine if_neg fun ⟨hen, hline, _⟩ => hne ?_
    have hbank : (access bank).addr.getLsbD M.lineBits = bank := by
      simpa [onBank] using h bank hen
    rw [hline, ← getLsbD_lineBits]
    exact hbank
  cases hb : decide (a / M.strbWidth % 2 = 1) with
  | false => exact hother true _ (by simp [hb])
  | true =>
    have hfalse := hother false mem (by simp [hb])
    unfold Port.put at hfalse ⊢
    rw [hfalse]

/-- What a line holds after the access of the port of its bank, byte by byte. -/
theorem lane_access {aw : Nat} {x : Port M aw} {old : Word M} {a : Nat} {hit : Prop}
    [Decidable hit] (mem : Nat → BitVec 8) (hmem : Lanes.lane old (a % M.strbWidth) = mem a)
    (hhit : x.en = true ∧ hit ↔ x.en = true ∧ a / M.strbWidth = x.addr.toNat / M.strbWidth) :
    Lanes.lane (if x.en = true ∧ hit then merge old x.wen x.data else old) (a % M.strbWidth) =
      x.put mem a := by
  have hlt : a % M.strbWidth < M.strbWidth := Nat.mod_lt _ (Nat.two_pow_pos _)
  unfold Port.put
  by_cases hx : x.en = true ∧ hit
  · obtain ⟨hen, hline⟩ := hhit.mp hx
    rw [if_pos hx, lane_merge _ _ _ hlt, hmem]
    simp [hen, hline]
  · rw [if_neg hx, if_neg fun hall => hx (hhit.mpr ⟨hall.1, hall.2.1⟩), hmem]

end Bytes

section Stores
variable (s : MemSys M) (i : Inputs M)

/-- A line number from its bank and its place there. -/
theorem line_inj {m n : Nat} (hbank : decide (m % 2 = 1) = decide (n % 2 = 1))
    (hhalf : m / 2 = n / 2) : m = n := by
  have := decide_eq_decide.mp hbank
  omega

theorem half_lt {aw k a : Nat} (ha : a < 2 ^ aw) (hk : M.lineBits + 1 + k = aw) :
    a / M.strbWidth / 2 < 2 ^ k := by
  rw [Nat.div_div_eq_div_mul, ← Nat.pow_succ, Nat.div_lt_iff_lt_mul (Nat.two_pow_pos _),
    ← Nat.pow_add, Nat.add_comm k, hk]
  exact ha

theorem ofNat_inj {k m n : Nat} (hm : m < 2 ^ k) (hn : n < 2 ^ k)
    (h : BitVec.ofNat k m = BitVec.ofNat k n) : m = n := by
  have hnat := congrArg BitVec.toNat h
  rwa [BitVec.toNat_ofNat, BitVec.toNat_ofNat, Nat.mod_eq_of_lt hm, Nat.mod_eq_of_lt hn] at hnat

/-- An address of the data memory is decoded into the bank and the place of a line only if it
is an address of that line. -/
theorem dmem_decode {addr : BitVec M.dmemAw} {a : Nat} (ha : a < 2 ^ M.dmemAw)
    (hbank : addr.getLsbD M.lineBits = decide (a / M.strbWidth % 2 = 1)) :
    dmemLine addr = BitVec.ofNat _ (a / M.strbWidth / 2) ↔
      a / M.strbWidth = addr.toNat / M.strbWidth := by
  have hlt := M.lineBits_lt
  have hk : M.lineBits + 1 + M.lineAw = M.dmemAw := Nat.add_sub_cancel' hlt
  rw [getLsbD_lineBits] at hbank
  rw [dmemLine, extractLsb'_line]
  constructor
  · intro hline
    exact (line_inj hbank (ofNat_inj (half_lt addr.isLt hk) (half_lt ha hk) hline)).symm
  · intro heq
    rw [heq]

theorem pmem_decode {addr : BitVec M.pmemAw} {a : Nat} (ha : a < 2 ^ M.pmemAw)
    (hbank : addr.getLsbD M.lineBits = decide (a / M.strbWidth % 2 = 1)) :
    (pmemSel addr = BitVec.ofNat _
        (a / M.strbWidth / 2 / 2 ^ (M.pmemAw - M.selBits - (M.lineBits + 1))) ∧
      pmemLine addr = BitVec.ofNat _ (a / M.strbWidth / 2)) ↔
      a / M.strbWidth = addr.toNat / M.strbWidth := by
  have hle := M.selBits_le
  have hk : M.lineBits + 1 + (M.pmemAw - M.selBits - (M.lineBits + 1) + M.selBits) = M.pmemAw := by
    omega
  have hblock : ∀ {x : Nat}, x < 2 ^ M.pmemAw →
      x / M.strbWidth / 2 / 2 ^ (M.pmemAw - M.selBits - (M.lineBits + 1)) < 2 ^ M.selBits := by
    intro x hx
    rw [Nat.div_lt_iff_lt_mul (Nat.two_pow_pos _), Nat.mul_comm, ← Nat.pow_add]
    exact half_lt hx hk
  rw [getLsbD_lineBits] at hbank
  rw [pmemSel_eq, pmemLine, extractLsb'_line]
  constructor
  · rintro ⟨hsel, hline⟩
    have hdiv := ofNat_inj (hblock addr.isLt) (hblock ha) hsel
    have hmod := congrArg BitVec.toNat hline
    rw [BitVec.toNat_ofNat, BitVec.toNat_ofNat] at hmod
    refine (line_inj hbank ?_).symm
    rw [← Nat.div_add_mod (addr.toNat / M.strbWidth / 2)
      (2 ^ (M.pmemAw - M.selBits - (M.lineBits + 1))), hdiv, hmod, Nat.div_add_mod]
  · intro heq
    rw [heq]
    exact ⟨rfl, rfl⟩

theorem ownBanks_dmaDmemPort : OwnBanks s.dmaDmemPort := by
  intro bank
  unfold dmaDmemPort bcOwns dmemWrHead dmemRdHead
  split_ifs with hbc hwr hrd
  · exact fun _ => (Bool.and_eq_true_iff.mp hbc).1
  · exact fun _ => (Bool.and_eq_true_iff.mp hwr).1
  · exact fun _ => (Bool.and_eq_true_iff.mp hrd).1
  · exact fun hen => absurd hen (by simp)

theorem ownBanks_nextPmemPort : OwnBanks (s.nextPmemPort i) := by
  intro bank hen
  have hcore : onBank M bank (i.core.addr.setWidth M.pmemAw) = onBank M bank i.core.addr := by
    have hlt : M.lineBits < M.pmemAw := by
      have := M.selBits_le
      omega
    simp [onBank, hlt]
  unfold nextPmemPort pmemWrHead pmemRdHead at hen ⊢
  split_ifs at hen ⊢ with hc hwr hrd
  · exact hcore.trans (Bool.and_eq_true_iff.mp hc).1
  · exact (Bool.and_eq_true_iff.mp hwr).1
  · exact (Bool.and_eq_true_iff.mp hrd).1
  · exact absurd hen (by simp)

/-- **The accesses at the ports change the memories at their own addresses.** -/
theorem stores_of_ownBanks (h : OwnBanks s.pmemPort) : Stores s i where
  dmem := by
    intro a ha hcore
    rw [s.ownBanks_dmaDmemPort.put_eq]
    have hnocore : ¬ (i.coreDmemEn = true ∧
        (i.core.lineWrite M.toConfig).bank = decide (a / M.strbWidth % 2 = 1) ∧
        (i.core.lineWrite M.toConfig).line = BitVec.ofNat _ (a / M.strbWidth / 2)) := by
      rintro ⟨hen, hbank, hline⟩
      have hlt := M.lineBits_lt
      have hk : M.lineBits + 1 + M.lineAw = M.dmemAw := Nat.add_sub_cancel' hlt
      have hbank' : (i.core.addr.setWidth M.dmemAw).getLsbD M.lineBits =
          decide (a / M.strbWidth % 2 = 1) := by
        rw [BitVec.getLsbD_setWidth, decide_eq_true hlt, Bool.true_and]
        exact hbank
      have hline' : dmemLine (i.core.addr.setWidth M.dmemAw) =
          BitVec.ofNat _ (a / M.strbWidth / 2) := by
        rw [dmemLine, BitVec.extractLsb'_setWidth_of_le hk.le]
        exact hline
      refine hcore ⟨hen, ?_⟩
      rw [(dmem_decode ha hbank').mp hline', BitVec.toNat_setWidth]
    change Lanes.lane (s.nextDmem i _ _) _ = _
    rw [nextDmem, if_neg hnocore]
    refine lane_access s.dmemByte rfl (and_congr_right fun hen => ?_)
    exact dmem_decode ha (by simpa [onBank] using s.ownBanks_dmaDmemPort _ hen)
  pmem := by
    intro a ha hacc
    rw [h.put_eq]
    have hhit := and_congr_right fun hen =>
      pmem_decode ha (by simpa [onBank] using h (decide (a / M.strbWidth % 2 = 1)) hen)
    have hfirst := lane_access s.pmemByte rfl hhit
    change Lanes.lane (s.nextPmem i _ _ _) _ = _
    unfold nextPmem
    split
    case h_1 => exact hfirst
    case h_2 x hx =>
      rw [if_neg fun hline => hacc ⟨x, hx, hline⟩]
      exact hfirst

end Stores

end MemSys
end Rosebud
