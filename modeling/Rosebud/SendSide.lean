import Rosebud.BasicFifo
import Rosebud.DescParser
import Rosebud.DmaRead
import Rosebud.DramRequest

/-! # The send side of `rpu_intercon`

Four queues hold what an RPU has to send: packet descriptors of the core, replies of
the load balancer, DRAM writes of the core and DRAM read requests of the host.  Three
arbiters choose among them, the load balancer before the core, the core's DRAM writes
before the host's requests, and packets and DRAM traffic in turn; the choice goes to
the read half of `axis_dma`.  When it has sent a packet, the packet's slot goes back to
the load balancer through `pkt_sent_fifo` and the control output register, which it
shares with the messages of the core.

The model is the whole path, from the three interfaces on which descriptors arrive to
`ctrl_m_axis`; the packet data behind `axis_dma` appear as its stalls.
-/
namespace Rosebud.SendSide
open DescParser

/-- The parameters.  Queue depths are given by their address widths. -/
structure Config extends DescParser.Config where
  maskBits : Nat
  maskBits_le : maskBits ≤ 16
  slotCount : Nat
  slotWidth : Nat
  tagWidth : Nat
  idTagWidth : Nat
  sendAw : Nat
  recvAw : Nat
  dramAw : Nat
  sendAw_pos : 0 < sendAw
  recvAw_pos : 0 < recvAw
  dramAw_pos : 0 < dramAw
  dramMRegType : Nat

/-- The parameters `axis_dma` is instantiated with. -/
def Config.dma (P : Config) : DmaRead.Config where
  maskBits := P.maskBits
  addrWidth := 26
  lenWidth := 16
  destWidthOut := P.portWidth
  userWidthOut := P.tagWidth
  maskBits_le_addrWidth := by have := P.maskBits_le; omega
  maskBits_le_lenWidth := P.maskBits_le

variable {P : Config}

/-! ## Messages of the load balancer -/

/-- An entry of `recvd_ctrl_fifo`: a descriptor, and for a loopback the header to put in
front of the packet. -/
structure CtrlIn (P : Config) where
  loopback : Bool
  header : BitVec P.idTagWidth
  desc : BitVec 64
deriving DecidableEq, Inhabited

structure LbRegs (P : Config) where
  ctrlSAxisTdataR : BitVec 36
  ctrlSAxisTvalidR : Bool
  ctrlInSlotPtr : BitVec P.slotWidth
  sendSlotAddr : BitVec P.slotWidth → BitVec 25
  sendSlotLen : BitVec P.slotWidth → BitVec 16
deriving Inhabited

namespace LbRegs
variable (r : LbRegs P)

def ctrlCmd : BitVec 4 := r.ctrlSAxisTdataR.extractLsb' 32 4

def ctrlDescCmd : Bool := decide (r.ctrlCmd = 0) || decide (r.ctrlCmd = 1)

def ctrlSendAddr : BitVec 25 := r.sendSlotAddr r.ctrlInSlotPtr

def ctrlLpSendLen : BitVec 16 := r.sendSlotLen r.ctrlInSlotPtr

def parsedCtrlDesc : CtrlIn P :=
  if r.ctrlCmd = 1 then
    ⟨true, r.ctrlSAxisTdataR.extractLsb' 0 P.idTagWidth,
      (0 : BitVec 7) ++ r.ctrlSendAddr ++ r.ctrlSAxisTdataR.extractLsb' 16 16 ++ r.ctrlLpSendLen⟩
  else
    ⟨false, 0, (0 : BitVec 7) ++ r.ctrlSendAddr ++ r.ctrlSAxisTdataR.extractLsb' 0 32⟩

/-- The registers after the clock edge.  `msg` is a message the core sends to the load
balancer in this cycle: it says where and how long the packet in its slot is. -/
def next (tvalid : Bool) (tdata : BitVec 36) (tready : Bool) (msg : Option (BitVec 64)) :
    LbRegs P where
  ctrlSAxisTdataR := if tvalid && tready then tdata else r.ctrlSAxisTdataR
  ctrlSAxisTvalidR := (tvalid && tready) || (r.ctrlSAxisTvalidR && !tready)
  ctrlInSlotPtr :=
    if tvalid && tready then tdata.extractLsb' 16 P.slotWidth else r.ctrlInSlotPtr
  sendSlotAddr := fun slot =>
    match msg with
    | none => r.sendSlotAddr slot
    | some d =>
      if d.extractLsb' 16 P.slotWidth = slot ∧ 1 ≤ slot.toNat ∧ slot.toNat ≤ P.slotCount then
        d.extractLsb' 32 25
      else r.sendSlotAddr slot
  sendSlotLen := fun slot =>
    match msg with
    | none => r.sendSlotLen slot
    | some d =>
      if d.extractLsb' 16 P.slotWidth = slot ∧ 1 ≤ slot.toNat ∧ slot.toNat ≤ P.slotCount then
        d.extractLsb' 0 16
      else r.sendSlotLen slot

end LbRegs

/-! ## DRAM requests of the host -/

structure HostRegs where
  dramReqValid : Bool
  dramReqState : BitVec 3
  dramReq0 : BitVec 32
  dramReq1 : BitVec 32
  dramReq2 : BitVec 32
  dramReq3 : BitVec 32
deriving Inhabited

namespace HostRegs
variable (P) (r : HostRegs)

/-- The first word of a request with tag 0 and the DRAM port. -/
def firstWord (tdata : BitVec 32) : BitVec 32 :=
  ((0 : BitVec (8 - P.portWidth)) ++ P.dramPort ++ (0 : BitVec 8) ++
    tdata.extractLsb' 0 16).setWidth 32

/-- An entry of `recvd_dram_rd_fifo`. -/
def request : BitVec 128 := r.dramReq3 ++ r.dramReq2 ++ r.dramReq1 ++ r.dramReq0

/-- The registers after the clock edge, outside reset. -/
def next (tvalid : Bool) (tdata : BitVec 32) (tlast : Bool) (dramReqReady : Bool) : HostRegs :=
  let r' := { r with dramReqValid := false }
  if tvalid && dramReqReady then
    if tlast then
      match r.dramReqState with
      | 0 => { r' with dramReqState := 4 }
      | 1 => { r' with dramReqState := 4 }
      | 2 => { r' with dramReqState := 4 }
      | 3 => { r' with dramReq3 := tdata, dramReqValid := true, dramReqState := 0 }
      | 4 => { r' with dramReqState := 0 }
      | _ => r'
    else
      match r.dramReqState with
      | 0 => { r' with dramReq0 := firstWord P tdata, dramReqState := 1 }
      | 1 => { r' with dramReq1 := tdata, dramReqState := 2 }
      | 2 => { r' with dramReq2 := tdata, dramReqState := 3 }
      | 3 => { r' with dramReqState := 4 }
      | 4 => { r' with dramReqState := 4 }
      | _ => r'
  else r'

end HostRegs

/-! ## The whole send side -/

structure Regs (P : Config) where
  parser : DescParser.Regs
  sendDataFifo : BasicFifo P.sendAw (BitVec 64)
  sendCtrlFifo : BasicFifo P.sendAw (BitVec 64)
  dramSendFifo : BasicFifo P.dramAw (BitVec 128)
  dramRequest : DramRequest.Regs P.dramAw
  lb : LbRegs P
  recvdCtrlFifo : BasicFifo P.recvAw (CtrlIn P)
  host : HostRegs
  recvdDramRdFifo : BasicFifo P.dramAw (BitVec 128)
  dramNextSelectionR : Bool
  dma : DmaRead.Reader P.dma
  latchedSendDesc : BitVec 64
  pktSentFifo : BasicFifo P.sendAw (BitVec 64)
  ctrlMAxisTdataR : BitVec 36
  ctrlMAxisTvalidR : Bool
deriving Inhabited

/-- One cycle of the surroundings: the core, the load balancer, the host, the memory,
and the three streams that leave. -/
structure Cycle (P : Config) where
  coreReset : Bool
  beat : Beat
  ctrlSAxisTvalid : Bool
  ctrlSAxisTdata : BitVec 36
  dramSAxisTvalid : Bool
  dramSAxisTdata : BitVec 32
  dramSAxisTlast : Bool
  memRdReady : Bool
  respond : Bool
  memRdData : DmaRead.Word P.dma
  mAxisTready : Bool
  dramMAxisTready : Bool
  ctrlMAxisTready : Bool

section Wires
variable (r : Regs P) (c : Cycle P)

/-! ### The arbiters -/

def ctrlInValid : Bool := r.recvdCtrlFifo.doutValid

def coreDataWrValidF : Bool := r.sendDataFifo.doutValid

def coreDramWrValidF : Bool := r.dramSendFifo.doutValid

def dramInValid : Bool := r.recvdDramRdFifo.doutValid

def dataSelect : Bool := ctrlInValid r

def sendPktValid : Bool := ctrlInValid r || coreDataWrValidF r

def sendPktDesc : BitVec 64 :=
  if dataSelect r then r.recvdCtrlFifo.dout.desc else r.sendDataFifo.dout

def dramSelect : Bool := coreDramWrValidF r

def dramWrValid : Bool := coreDramWrValidF r || dramInValid r

def dramWrDesc : BitVec 128 :=
  if dramSelect r then r.dramSendFifo.dout else r.recvdDramRdFifo.dout

def dramOutSelect : Bool :=
  if !dramWrValid r then false
  else if !sendPktValid r then true
  else r.dramNextSelectionR

def sendDescReady : Bool := DmaRead.sendDescReady r.dma.regs

def pktSentReady : Bool := r.pktSentFifo.dinReady

def dramWrReady : Bool := dramWrValid r && dramOutSelect r && sendDescReady r

def sendPktReady : Bool :=
  sendPktValid r && !dramOutSelect r && sendDescReady r && pktSentReady r

def sendDesc : BitVec 64 :=
  if dramOutSelect r then descOf (dramWrDesc r) else sendPktDesc r

def sendDescValid : Bool := dramWrValid r || (sendPktValid r && pktSentReady r)

def coreDataWrReadyF : Bool := sendPktReady r && !dataSelect r

def ctrlInReady : Bool := sendPktReady r && dataSelect r

def coreDramWrReadyF : Bool := dramSelect r && coreDramWrValidF r && dramWrReady r

def dramInReady : Bool := !dramSelect r && dramInValid r && dramWrReady r

/-! ### `axis_dma` and `pkt_sent_fifo` -/

def dmaEnv : DmaRead.Env P.dma where
  sendDescValid := sendDescValid r
  sendDesc := {
    addr := (0 : BitVec 1) ++ (sendDesc r).extractLsb' 32 25
    len := (sendDesc r).extractLsb' 0 16
    tdest := portOf P.toConfig (sendDesc r)
    tuser := (sendDesc r).extractLsb' 16 P.tagWidth }
  memRdReady := c.memRdReady
  respond := c.respond
  memRdData := c.memRdData
  mAxisTready := c.mAxisTready

def pktSent : Bool := DmaRead.pktSent r.dma.regs (r.dma.inputs (dmaEnv r c))

def pktSentIsDram : Bool := decide (portOf P.toConfig r.latchedSendDesc = P.dramPort)

/-! ### The control output -/

def pktSentValidF : Bool := r.pktSentFifo.doutValid

def coreCtrlWrValidF : Bool := r.sendCtrlFifo.doutValid

def ctrlSelect : Bool := pktSentValidF r

def ctrlOutValid : Bool := pktSentValidF r || coreCtrlWrValidF r

def ctrlOutData : BitVec 64 :=
  if ctrlSelect r then r.pktSentFifo.dout else r.sendCtrlFifo.dout

def ctrlOutReady : Bool := !r.ctrlMAxisTvalidR || c.ctrlMAxisTready

def coreCtrlWrReadyF : Bool := ctrlOutReady r c && !ctrlSelect r

def pktSentReadyF : Bool := ctrlOutReady r c && ctrlSelect r

/-- What goes out on `ctrl_m_axis` of a descriptor: its type, port, slot and length. -/
def ctrlMsg (d : BitVec 64) : BitVec 36 := d.extractLsb' 60 4 ++ d.extractLsb' 0 32

/-! ### The queues -/

def ready : Ready where
  coreDataWrReady := r.sendDataFifo.dinReady
  coreCtrlWrReady := r.sendCtrlFifo.dinReady
  coreDramWrReady := r.dramSendFifo.dinReady
  coreDramRdReady := r.dramRequest.sendDramCtrlFifo.dinReady

def sendDataInputs : BasicFifo.Inputs (BitVec 64) where
  rst := false
  clear := c.coreReset
  dinValid := c.beat.outDescValid && coreDataWr c.beat
  din := c.beat.outDesc
  doutReady := coreDataWrReadyF r

def sendCtrlInputs : BasicFifo.Inputs (BitVec 64) where
  rst := false
  clear := c.coreReset
  dinValid := c.beat.outDescValid && coreCtrlWr c.beat
  din := c.beat.outDesc
  doutReady := coreCtrlWrReadyF r c

def dramSendInputs : BasicFifo.Inputs (BitVec 128) where
  rst := false
  clear := c.coreReset
  dinValid := c.beat.outDescValid && r.parser.coreDramWrR
  din := dramDesc r.parser c.beat
  doutReady := coreDramWrReadyF r

def dramRequestCycle : DramRequest.Cycle where
  coreReset := c.coreReset
  dinValid := c.beat.outDescValid && r.parser.coreDramRdR
  din := dramDesc r.parser c.beat
  dramMAxisTready := c.dramMAxisTready

def recvdCtrlInputs : BasicFifo.Inputs (CtrlIn P) where
  rst := false
  clear := false
  dinValid := r.lb.ctrlSAxisTvalidR && r.lb.ctrlDescCmd
  din := r.lb.parsedCtrlDesc
  doutReady := ctrlInReady r

def recvdDramRdInputs : BasicFifo.Inputs (BitVec 128) where
  rst := false
  clear := false
  dinValid := r.host.dramReqValid
  din := r.host.request
  doutReady := dramInReady r

def pktSentInputs : BasicFifo.Inputs (BitVec 64) where
  rst := false
  clear := c.coreReset
  dinValid := pktSent r c && !pktSentIsDram r
  din := r.latchedSendDesc
  doutReady := pktSentReadyF r c

/-- The registers after the clock edge, outside reset. -/
def next : Regs P where
  parser := DescParser.next P.toConfig r.parser c.beat (ready r)
  sendDataFifo := r.sendDataFifo.next (sendDataInputs r c)
  sendCtrlFifo := r.sendCtrlFifo.next (sendCtrlInputs r c)
  dramSendFifo := r.dramSendFifo.next (dramSendInputs r c)
  dramRequest := DramRequest.next P.dramMRegType r.dramRequest (dramRequestCycle r c)
  lb :=
    r.lb.next c.ctrlSAxisTvalid c.ctrlSAxisTdata r.recvdCtrlFifo.dinReady
      (if coreCtrlWrValidF r && coreCtrlWrReadyF r c then some r.sendCtrlFifo.dout else none)
  recvdCtrlFifo := r.recvdCtrlFifo.next (recvdCtrlInputs r)
  host :=
    r.host.next P c.dramSAxisTvalid c.dramSAxisTdata c.dramSAxisTlast r.recvdDramRdFifo.dinReady
  recvdDramRdFifo := r.recvdDramRdFifo.next (recvdDramRdInputs r)
  dramNextSelectionR :=
    if dramWrValid r && dramWrReady r then false
    else if sendPktValid r && sendPktReady r then true
    else r.dramNextSelectionR
  dma := r.dma.step (dmaEnv r c)
  latchedSendDesc :=
    if sendDescValid r && sendDescReady r then sendDesc r else r.latchedSendDesc
  pktSentFifo := r.pktSentFifo.next (pktSentInputs r c)
  ctrlMAxisTdataR :=
    if ctrlOutValid r && (!r.ctrlMAxisTvalidR || c.ctrlMAxisTready) then ctrlMsg (ctrlOutData r)
    else r.ctrlMAxisTdataR
  ctrlMAxisTvalidR :=
    if ctrlOutValid r && (!r.ctrlMAxisTvalidR || c.ctrlMAxisTready) then true
    else if c.ctrlMAxisTready && !ctrlOutValid r then false
    else r.ctrlMAxisTvalidR

end Wires

/-- Out of reset: what reset does not set holds anything. -/
structure Fresh (r : Regs P) : Prop where
  parser : DescParser.Fresh r.parser
  sendDataFifo : r.sendDataFifo.Fresh
  sendCtrlFifo : r.sendCtrlFifo.Fresh
  dramSendFifo : r.dramSendFifo.Fresh
  sendDramCtrlFifo : r.dramRequest.sendDramCtrlFifo.Fresh
  sendDramRdState : r.dramRequest.sendDramRdState = 0
  dramMReg : r.dramRequest.dramMReg.Fresh
  ctrlSAxisTvalidR : r.lb.ctrlSAxisTvalidR = false
  recvdCtrlFifo : r.recvdCtrlFifo.Fresh
  dramReqValid : r.host.dramReqValid = false
  dramReqState : r.host.dramReqState = 0
  recvdDramRdFifo : r.recvdDramRdFifo.Fresh
  dramNextSelectionR : r.dramNextSelectionR = false
  dma : DmaRead.Fresh r.dma
  pktSentFifo : r.pktSentFifo.Fresh
  ctrlMAxisTvalidR : r.ctrlMAxisTvalidR = false
  ctrlMAxisTdataR : r.ctrlMAxisTdataR = 0

/-- The registers after a reset, with zeros in those that a reset leaves alone. -/
def Regs.reset : Regs P := { (default : Regs P) with dma := .reset }

theorem Regs.reset_fresh : Fresh (Regs.reset : Regs P) :=
  ⟨⟨rfl, rfl⟩, .default, .default, .default, .default, rfl, .default, rfl, .default, rfl, rfl,
    .default, rfl, DmaRead.Reader.reset_fresh, .default, rfl, rfl⟩

end Rosebud.SendSide
