import Rosebud.Clocked
import Rosebud.ByteStore

/-! # `axis_dma`, from the stream to the memory

The write half of `axis_dma`: the words of a packet pass two registers, and each write
to the memory is taken from the two of them at the offset of the packet's base
address.  If the last word reaches over the end of its memory word, an extra cycle
writes what is left of it.

A bench closes the circuit: packets to come on one side, and on the other the logs of
the writes the memory took and of the descriptors that were taken.
-/
namespace Rosebud.DmaWrite
open Clocked Lanes AxiStream ByteStore

/-- The parameters of the write half. -/
structure Config where
  maskBits : Nat
  addrWidth : Nat
  lenWidth : Nat
  destWidthIn : Nat
  userWidthIn : Nat
  hdrAddrBits : Nat
  hdrMsbWidth : Nat
  maskBits_le : maskBits ≤ addrWidth

/-- `STRB_WIDTH`. -/
def Config.strbWidth (P : Config) : Nat := 2 ^ P.maskBits

theorem Config.strbWidth_pos (P : Config) : 0 < P.strbWidth := Nat.two_pow_pos _

variable {P : Config}

/-- What accompanies a word: the side channels of the stream, and the address the
interconnect derives from them. -/
structure Side (P : Config) where
  tdest : BitVec P.destWidthIn
  tuser : BitVec P.userWidthIn
  wrBaseAddr : BitVec P.addrWidth
  hdrWrAddrMsb : BitVec P.hdrMsbWidth
  hdrEn : Bool
deriving DecidableEq

abbrev Word (P : Config) : Type := BitVec (8 * P.strbWidth)

abbrev Pkt (P : Config) : Type := Packet P.strbWidth (Side P)

/-- A receive descriptor. -/
structure Desc (P : Config) where
  addr : BitVec P.addrWidth
  len : BitVec P.lenWidth
  tdest : BitVec P.destWidthIn
  tuser : BitVec P.userWidthIn
deriving DecidableEq, Inhabited

inductive WrState where
  | idle
  | proc
deriving DecidableEq, Inhabited

structure Regs (P : Config) where
  wrStateR : WrState
  wrStartAddr : BitVec P.addrWidth
  wrTuser : BitVec P.userWidthIn
  wrOffset : BitVec (P.maskBits + 1)
  wrTdest : BitVec P.destWidthIn
  wrStrbLeft : Bool
  hdrMsbR : BitVec P.hdrMsbWidth
  hdrEnR : Bool
  wrDataEn : Bool
  wrLast : Bool
  extraCycleR : Bool
  wrData1 : Word P
  wrData2 : Word P
  wrStrb1 : BitVec P.strbWidth
  wrStrb2 : BitVec P.strbWidth
  wrFirstPkt : Bool
  nextWrAddr : BitVec P.addrWidth
  wrPktLen : BitVec P.lenWidth
  descLateWrite : Bool
  recvDescR : Desc P
  recvDescVR : Bool
deriving Inhabited

structure Inputs (P : Config) where
  sAxisTvalid : Bool
  sAxis : Beat P.strbWidth (Side P)
  memWrReady : Bool
  recvDescReady : Bool

/-! ## The circuit -/

/-- The bytes of a memory word from the base address on. -/
def offsetOf (base : BitVec P.addrWidth) : BitVec (P.maskBits + 1) :=
  BitVec.ofNat _ (2 ^ P.maskBits) - (base.extractLsb' 0 P.maskBits).setWidth (P.maskBits + 1)

/-- The loop that counts the ones of a strobe. -/
def oneCount (strb : BitVec P.strbWidth) : BitVec (P.maskBits + 1) :=
  (List.range P.strbWidth).foldr (fun i count => if !strb.getLsbD i then count - 1 else count)
    (BitVec.ofNat _ P.strbWidth)

section Wires
variable (r : Regs P) (i : Inputs P)

def extraCycle : Bool := r.wrLast && r.wrStrbLeft

def wrLastPkt : Bool := r.wrDataEn && ((r.wrLast && !extraCycle r) || r.extraCycleR)

def descBlock : Bool := r.recvDescVR && !i.recvDescReady

def sAxisTready : Bool :=
  i.memWrReady && !extraCycle r && !(i.sAxis.tlast && descBlock r i)

/-- A word is taken from the stream. -/
def accepts : Bool := i.sAxisTvalid && sAxisTready r i

def latchInfo : Bool :=
  (decide (r.wrStateR = .idle) || (wrLastPkt r && i.memWrReady)) && accepts r i

def wrAlignedAddr : BitVec P.addrWidth := (r.wrStartAddr >>> P.maskBits) <<< P.maskBits

def wrAddr : BitVec P.addrWidth := if r.wrFirstPkt then wrAlignedAddr r else r.nextWrAddr

def memWrData : Word P := window r.wrData1 r.wrData2 r.wrOffset.toNat

def memWrStrb : BitVec P.strbWidth := strbWindow r.wrStrb1 r.wrStrb2 r.wrOffset.toNat

def nextWrPktLen : BitVec P.lenWidth :=
  if r.wrFirstPkt then (oneCount (memWrStrb r)).setWidth P.lenWidth
  else r.wrPktLen + (oneCount (memWrStrb r)).setWidth P.lenWidth

/-- A write is taken by the memory. -/
def writes : Bool := r.wrDataEn && i.memWrReady

def memHdrWrEn : Bool := r.hdrEnR && r.wrDataEn

def memHdrWrAddr : BitVec (P.hdrMsbWidth + P.hdrAddrBits) :=
  r.hdrMsbR ++ (wrAddr r).extractLsb' 0 P.hdrAddrBits

/-- The write on offer: what it stores, and `mem_wr_last`. -/
def store : Store P.addrWidth :=
  ⟨keptAt (wrAddr r) (memWrData r) (memWrStrb r), wrLastPkt r⟩

/-- The state machine after the clock edge. -/
def nextWrState : WrState :=
  if r.wrStateR = .idle ∧ accepts r i = true then .proc
  else if r.wrStateR = .proc ∧ (wrLastPkt r && i.memWrReady && !accepts r i) = true then .idle
  else r.wrStateR

/-- `hdr_en_r` falls when a write has reached the end of the header region. -/
def nextHdrEn : Bool :=
  if latchInfo r i then i.sAxis.side.hdrEn
  else if writes r i && decide ((wrAddr r).extractLsb' P.maskBits (P.hdrAddrBits - P.maskBits) =
    BitVec.allOnes _) then false
  else r.hdrEnR

def nextWrStrbLeft : Bool :=
  if extraCycle r && writes r i then false
  else if latchInfo r i then
    decide (i.sAxis.tkeep >>> (offsetOf i.sAxis.side.wrBaseAddr).toNat ≠ 0)
  else if accepts r i then decide (i.sAxis.tkeep >>> r.wrOffset.toNat ≠ 0)
  else r.wrStrbLeft

/-- The descriptor of the packet the registers belong to. -/
def liveDesc : Desc P := ⟨r.wrStartAddr, nextWrPktLen r, r.wrTdest, r.wrTuser⟩

/-- The descriptor register takes over the live descriptor. -/
def latchDesc : Bool :=
  (wrLastPkt r && i.memWrReady && !descBlock r i) || (r.descLateWrite && i.recvDescReady)

/-- The registers after the clock edge, outside reset. -/
def next : Regs P where
  wrStateR := nextWrState r i
  wrStartAddr := if latchInfo r i then i.sAxis.side.wrBaseAddr else r.wrStartAddr
  wrTuser := if latchInfo r i then i.sAxis.side.tuser else r.wrTuser
  wrOffset := if latchInfo r i then offsetOf i.sAxis.side.wrBaseAddr else r.wrOffset
  wrTdest := if latchInfo r i then i.sAxis.side.tdest else r.wrTdest
  wrStrbLeft := nextWrStrbLeft r i
  hdrMsbR := if latchInfo r i then i.sAxis.side.hdrWrAddrMsb else r.hdrMsbR
  hdrEnR := nextHdrEn r i
  wrDataEn :=
    accepts r i || (r.wrDataEn && i.memWrReady && extraCycle r) ||
      (r.wrDataEn && !i.memWrReady)
  wrLast :=
    if extraCycle r && writes r i then false
    else if accepts r i then i.sAxis.tlast
    else r.wrLast
  extraCycleR := if writes r i then extraCycle r else r.extraCycleR
  wrData1 := if !(extraCycle r && writes r i) && accepts r i then i.sAxis.tdata else r.wrData1
  wrData2 := if writes r i then r.wrData1 else r.wrData2
  wrStrb1 :=
    if extraCycle r && writes r i then 0
    else if accepts r i then i.sAxis.tkeep
    else r.wrStrb1
  wrStrb2 :=
    if wrLastPkt r && i.memWrReady then 0
    else if writes r i then r.wrStrb1
    else r.wrStrb2
  wrFirstPkt := latchInfo r i || (r.wrFirstPkt && !i.memWrReady)
  nextWrAddr :=
    if writes r i then wrAddr r + BitVec.ofNat _ P.strbWidth else r.nextWrAddr
  wrPktLen := if writes r i then nextWrPktLen r else r.wrPktLen
  descLateWrite :=
    if wrLastPkt r && i.memWrReady && descBlock r i then true
    else if i.recvDescReady then false
    else r.descLateWrite
  recvDescR := if latchDesc r i then liveDesc r else r.recvDescR
  recvDescVR :=
    if latchDesc r i then true
    else if r.recvDescVR && i.recvDescReady then false
    else r.recvDescVR

end Wires

/-! ## Runs -/

/-- One cycle of the surroundings: whether a word is offered, what is on the wires if
not, what stands on the side channels of the words after a packet's first, and the two
receivers. -/
structure Cycle (P : Config) where
  offer : Bool
  idle : Beat P.strbWidth (Side P)
  noise : Side P
  memWrReady : Bool
  recvDescReady : Bool

/-- The circuit with the words still to come, whether the next one is inside a packet,
and two logs: the writes the memory took and the descriptors that were taken. -/
structure Bench (P : Config) where
  regs : Regs P
  pending : List (Beat P.strbWidth (Side P))
  mid : Bool
  stores : List (Store P.addrWidth)
  descs : List (Desc P)

namespace Bench
variable (b : Bench P) (c : Cycle P)

def inputs : Inputs P where
  sAxisTvalid := (bus b.pending c.offer c.idle).1
  sAxis :=
    let beat := (bus b.pending c.offer c.idle).2
    if b.mid then { beat with side := c.noise } else beat
  memWrReady := c.memWrReady
  recvDescReady := c.recvDescReady

def accepts : Bool := DmaWrite.accepts b.regs (b.inputs c)

def step : Bench P where
  regs := next b.regs (b.inputs c)
  pending := rest b.pending (b.accepts c)
  mid := if b.accepts c then !(b.inputs c).sAxis.tlast else b.mid
  stores := b.stores ++ if writes b.regs (b.inputs c) then [store b.regs] else []
  descs := b.descs ++ if b.regs.recvDescVR && c.recvDescReady then [b.regs.recvDescR] else []

/-- Out of reset with packets to come: what reset does not set holds anything. -/
structure Start (b : Bench P) (ps : List (Pkt P)) : Prop where
  wrStateR : b.regs.wrStateR = .idle
  hdrEnR : b.regs.hdrEnR = false
  wrDataEn : b.regs.wrDataEn = false
  wrLast : b.regs.wrLast = false
  extraCycleR : b.regs.extraCycleR = false
  wrStrb1 : b.regs.wrStrb1 = 0
  wrStrb2 : b.regs.wrStrb2 = 0
  wrFirstPkt : b.regs.wrFirstPkt = false
  wrPktLen : b.regs.wrPktLen = 0
  descLateWrite : b.regs.descLateWrite = false
  recvDescVR : b.regs.recvDescVR = false
  pending : b.pending = ps.flatMap Packet.beats
  mid : b.mid = false
  stores : b.stores = []
  descs : b.descs = []

end Bench

/-! ## A packet across two memory words -/

/-- Words of two bytes in a memory of sixteen. -/
def sampleConfig : Config := ⟨1, 4, 4, 1, 1, 2, 1, by decide⟩

/-- Three bytes from address 3 on. -/
def samplePacket : Pkt sampleConfig where
  body := [0x0201]
  final := 0x0003
  count := 1
  count_le := by decide
  side := ⟨0, 0, 3, 0, false⟩

/-- The packets to come, out of reset. -/
def sampleBench (ps : List (Pkt sampleConfig)) : Bench sampleConfig :=
  ⟨default, ps.flatMap Packet.beats, false, [], []⟩

theorem sampleBench_start (ps : List (Pkt sampleConfig)) : (sampleBench ps).Start ps :=
  ⟨rfl, rfl, rfl, rfl, rfl, rfl, rfl, rfl, rfl, rfl, rfl, rfl, rfl, rfl, rfl⟩

/-- A cycle with a word offered and the memory ready. -/
def offering (recvDescReady : Bool) : Cycle sampleConfig :=
  ⟨true, ⟨0, 0, false, ⟨0, 0, 0, 0, false⟩⟩, ⟨0, 0, 0, 0, false⟩, true, recvDescReady⟩

end Rosebud.DmaWrite
