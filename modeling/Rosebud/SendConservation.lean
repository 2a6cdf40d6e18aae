import Rosebud.Clocked
import Rosebud.SendSide

/-! # What the send side of `rpu_intercon` conserves

`send_desc_valid` and the pops of the four queues are written down separately, and
they disagree in one case (`Stray`): packet and DRAM descriptors wait, it is the
packet's turn, and `pkt_sent_fifo` has no room.  The DRAM descriptor then makes
`send_desc_valid` high while `send_desc` is the packet's descriptor, which `axis_dma`
takes although nothing is popped; `stray_take` is a run in which a descriptor is sent
twice that way, and one slot is never returned.

Without that case (`Regular`) a descriptor is taken exactly when it is popped, and the
slots returned on `ctrl_m_axis`, those on their way there and the one being sent are
those of the packets taken: `each_sent_once`.
-/
namespace Rosebud.SendSide
open Clocked DescParser

variable {P : Config}

/-! ## Pops and takes -/

section Take
variable (r : Regs P) (c : Cycle P)

/-- The descriptors popped off the four queues in a cycle. -/
def pops : List (BitVec 64) :=
  (if r.recvdCtrlFifo.deque (recvdCtrlInputs r) then [r.recvdCtrlFifo.dout.desc] else []) ++
    (if r.sendDataFifo.deque (sendDataInputs r c) then [r.sendDataFifo.dout] else []) ++
    (if r.dramSendFifo.deque (dramSendInputs r c) then [descOf r.dramSendFifo.dout] else []) ++
    (if r.recvdDramRdFifo.deque (recvdDramRdInputs r) then [descOf r.recvdDramRdFifo.dout]
      else [])

/-- `axis_dma` takes a descriptor. -/
def takesDesc : Bool := sendDescValid r && sendDescReady r

def takes : List (BitVec 64) := if takesDesc r then [sendDesc r] else []

/-- The case the arbiters overlook. -/
def Stray : Bool :=
  dramWrValid r && sendPktValid r && !r.dramNextSelectionR && sendDescReady r && !pktSentReady r

end Take

section Arbiters
variable {r : Regs P} {c : Cycle P}

theorem takesDesc_eq (h : Stray r = false) :
    takesDesc r = (dramWrReady r || sendPktReady r) := by
  unfold takesDesc sendDescValid dramWrReady sendPktReady
  unfold Stray at h
  cases hd : dramWrValid r <;> cases hp : sendPktValid r <;> cases hn : r.dramNextSelectionR <;>
    cases hr : sendDescReady r <;> cases hs : pktSentReady r <;>
    simp_all [dramOutSelect]

/-- The packet queues are popped for a packet descriptor. -/
theorem pops_packet :
    ((if r.recvdCtrlFifo.deque (recvdCtrlInputs r) then [r.recvdCtrlFifo.dout.desc] else []) ++
      if r.sendDataFifo.deque (sendDataInputs r c) then [r.sendDataFifo.dout] else []) =
      if sendPktReady r then [sendPktDesc r] else [] := by
  have hctrl : r.recvdCtrlFifo.deque (recvdCtrlInputs r) = (ctrlInValid r && sendPktReady r) := by
    change (ctrlInValid r && (sendPktReady r && ctrlInValid r)) = _
    cases ctrlInValid r <;> simp
  have hdata : r.sendDataFifo.deque (sendDataInputs r c) =
      (coreDataWrValidF r && (sendPktReady r && !ctrlInValid r)) := rfl
  have hvalid : sendPktReady r = true → ctrlInValid r = true ∨ coreDataWrValidF r = true := by
    intro h
    simp only [sendPktReady, Bool.and_eq_true] at h
    simpa [sendPktValid] using h.1.1.1
  rw [hctrl, hdata, sendPktDesc, dataSelect]
  cases hp : sendPktReady r with
  | false => simp
  | true =>
    rcases hvalid hp with hv | hv
    · simp [hv]
    · cases hc : ctrlInValid r <;> simp [hv]

/-- The DRAM queues are popped for a DRAM descriptor. -/
theorem pops_dram :
    ((if r.dramSendFifo.deque (dramSendInputs r c) then [descOf r.dramSendFifo.dout] else []) ++
      if r.recvdDramRdFifo.deque (recvdDramRdInputs r) then [descOf r.recvdDramRdFifo.dout]
      else []) =
      if dramWrReady r then [descOf (dramWrDesc r)] else [] := by
  have hcore : r.dramSendFifo.deque (dramSendInputs r c) =
      (coreDramWrValidF r && dramWrReady r) := by
    change (coreDramWrValidF r && (coreDramWrValidF r && coreDramWrValidF r && dramWrReady r)) = _
    cases coreDramWrValidF r <;> simp
  have hhost : r.recvdDramRdFifo.deque (recvdDramRdInputs r) =
      (dramInValid r && (!coreDramWrValidF r && dramWrReady r)) := by
    change (dramInValid r && (!coreDramWrValidF r && dramInValid r && dramWrReady r)) = _
    cases dramInValid r <;> simp
  have hvalid : dramWrReady r = true → coreDramWrValidF r = true ∨ dramInValid r = true := by
    intro h
    simp only [dramWrReady, Bool.and_eq_true] at h
    simpa [dramWrValid] using h.1.1
  rw [hcore, hhost, dramWrDesc, dramSelect]
  cases hp : dramWrReady r with
  | false => simp
  | true =>
    rcases hvalid hp with hv | hv
    · simp [hv]
    · cases hc : coreDramWrValidF r <;> simp [hv]

/-- **A descriptor is taken exactly when it is popped.** -/
theorem pops_eq_takes (h : Stray r = false) : pops r c = takes r := by
  have htake := takesDesc_eq h
  unfold pops takes
  rw [List.append_assoc, pops_packet, pops_dram, htake]
  unfold sendDesc
  cases hsel : dramOutSelect r with
  | true =>
    have hpkt : sendPktReady r = false := by simp [sendPktReady, hsel]
    simp [hpkt]
  | false =>
    have hdram : dramWrReady r = false := by simp [dramWrReady, hsel]
    simp [hdram]

end Arbiters

/-! ## Runs -/

/-- The circuit with its logs: the descriptors popped and taken, and the slot returns
transferred on `ctrl_m_axis`.  `fromSent` notes whether the message in the control
output register is a slot return or a message of the core. -/
structure Bench (P : Config) where
  regs : Regs P
  fromSent : Bool
  popped : List (BitVec 64)
  taken : List (BitVec 64)
  returned : List (BitVec 36)

/-- The descriptor of a packet: its slot has to be returned. -/
def isPacket (P : Config) (d : BitVec 64) : Bool := !decide (portOf P.toConfig d = P.dramPort)

namespace Bench
variable (b : Bench P) (c : Cycle P)

def step : Bench P where
  regs := next b.regs c
  fromSent :=
    if ctrlOutValid b.regs && ctrlOutReady b.regs c then ctrlSelect b.regs else b.fromSent
  popped := b.popped ++ pops b.regs c
  taken := b.taken ++ takes b.regs
  returned :=
    b.returned ++
      if b.regs.ctrlMAxisTvalidR && c.ctrlMAxisTready && b.fromSent then
        [b.regs.ctrlMAxisTdataR]
      else []

/-- The slot return in the output register. -/
def inReg : List (BitVec 36) :=
  if b.regs.ctrlMAxisTvalidR && b.fromSent then [b.regs.ctrlMAxisTdataR] else []

/-- The packet being sent. -/
def sending : List (BitVec 64) :=
  if !sendDescReady b.regs && isPacket P b.regs.latchedSendDesc then [b.regs.latchedSendDesc]
  else []

structure Start (b : Bench P) : Prop where
  regs : Fresh b.regs
  popped : b.popped = []
  taken : b.taken = []
  returned : b.returned = []

/-- No core reset, and the arbiters do not run into the case they overlook. -/
def Regular : Prop := c.coreReset = false ∧ Stray b.regs = false
deriving Decidable

end Bench

/-! ## The invariant -/

/-- A descriptor for the DRAM port. -/
def ToDram (P : Config) (d : BitVec 128) : Prop := portOf P.toConfig (descOf d) = P.dramPort

/-- A request of the host carries the DRAM port from its first word on. -/
def HostKept (P : Config) (r : HostRegs) : Prop :=
  r.dramReqState = 1 ∨ r.dramReqState = 2 ∨ r.dramReqState = 3 ∨ r.dramReqValid = true →
    ∀ high : BitVec 96, ToDram P (high ++ r.dramReq0)

structure Inv (b : Bench P) : Prop where
  dramSendFifo : b.regs.dramSendFifo.Valid
  recvdDramRdFifo : b.regs.recvdDramRdFifo.Valid
  pktSentFifo : b.regs.pktSentFifo.Valid
  dma : DmaRead.Calm b.regs.dma
  parser : PortKept P.toConfig b.regs.parser
  host : HostKept P b.regs.host
  coreDram : ∀ d ∈ b.regs.dramSendFifo.contents, ToDram P d
  hostDram : ∀ d ∈ b.regs.recvdDramRdFifo.contents, ToDram P d
  room : sendDescReady b.regs = false → isPacket P b.regs.latchedSendDesc = true →
    pktSentReady b.regs = true
  popped : b.popped = b.taken
  returned : b.returned ++ (b.inReg ++ ((b.regs.pktSentFifo.contents ++ b.sending).map ctrlMsg)) =
    (b.taken.filter (isPacket P)).map ctrlMsg

theorem Bench.Start.inv {b : Bench P} (h : b.Start) : Inv b where
  dramSendFifo := h.regs.dramSendFifo.valid
  recvdDramRdFifo := h.regs.recvdDramRdFifo.valid
  pktSentFifo := h.regs.pktSentFifo.valid
  dma := h.regs.dma.calm
  parser := fun hw => absurd (h.regs.parser.1.symm.trans hw) (by simp)
  host := by
    intro hs
    simp [h.regs.dramReqState, h.regs.dramReqValid] at hs
  coreDram := by simp [h.regs.dramSendFifo.contents_eq]
  hostDram := by simp [h.regs.recvdDramRdFifo.contents_eq]
  room := by
    intro hbusy
    simp [sendDescReady, DmaRead.sendDescReady, h.regs.dma.rdStateR] at hbusy
  popped := by rw [h.popped, h.taken]
  returned := by
    simp [h.returned, h.taken, Bench.inReg, h.regs.ctrlMAxisTvalidR,
      h.regs.pktSentFifo.contents_eq, Bench.sending, sendDescReady, DmaRead.sendDescReady,
      h.regs.dma.rdStateR]

section Ports

/-- The first word of a request is given the DRAM port. -/
theorem toDram_firstWord (tdata : BitVec 32) (high : BitVec 96) :
    ToDram P (high ++ HostRegs.firstWord P tdata) := by
  have hle := P.portWidth_le
  ext i hi
  have h1 : ¬ 24 + i < 16 := by omega
  have h2 : 24 + i < 32 := by omega
  have h3 : 24 + i < 64 := by omega
  have h4 : ¬ 24 + i - 16 < 8 := by omega
  have h5 : 24 + i - 16 - 8 = i := by omega
  have hlow : (high ++ HostRegs.firstWord P tdata).getLsbD (24 + i) =
      (HostRegs.firstWord P tdata).getLsbD (24 + i) := by
    rw [BitVec.getLsbD_append, if_pos h2]
  have hfirst : (HostRegs.firstWord P tdata).getLsbD (24 + i) = P.dramPort.getLsbD i := by
    simp only [HostRegs.firstWord, BitVec.getLsbD_setWidth, BitVec.getLsbD_append, h1, h2, h4, h5,
      hi, decide_true, Bool.true_and, if_false, if_true]
  rw [portOf, descOf, BitVec.getElem_extractLsb', BitVec.getLsbD_extractLsb', Nat.zero_add,
    decide_eq_true h3, Bool.true_and]
  exact hlow.trans (hfirst.trans (BitVec.getLsbD_eq_getElem hi))

theorem HostKept.next {r : HostRegs} (h : HostKept P r) (tvalid : Bool) (tdata : BitVec 32)
    (tlast ready : Bool) : HostKept P (r.next P tvalid tdata tlast ready) := by
  have hquiet : HostKept P { r with dramReqValid := false } := by
    rintro (hs | hs | hs | hs)
    · exact h (.inl hs)
    · exact h (.inr (.inl hs))
    · exact h (.inr (.inr (.inl hs)))
    · exact absurd hs Bool.false_ne_true
  unfold HostRegs.next
  split
  · split
    · split
      case h_4 hst => exact fun _ => h (.inr (.inr (.inl hst)))
      case h_6 => exact hquiet
      all_goals
        rintro (hs | hs | hs | hs)
        all_goals simp at hs
    · split
      case h_1 => exact fun _ => toDram_firstWord tdata
      case h_2 hst => exact fun _ => h (.inl hst)
      case h_3 hst => exact fun _ => h (.inr (.inl hst))
      case h_6 => exact hquiet
      all_goals
        rintro (hs | hs | hs | hs)
        all_goals simp at hs
  · exact hquiet

variable {b : Bench P} {c : Cycle P}

/-- The DRAM queues hold descriptors for the DRAM port. -/
theorem coreDram_step (h : Inv b) (hc : c.coreReset = false) :
    ∀ d ∈ (next b.regs c).dramSendFifo.contents, ToDram P d := by
  refine BasicFifo.forall_contents_next h.dramSendFifo (by simp [dramSendInputs, hc]) h.coreDram ?_
  intro he
  have hw : b.regs.parser.coreDramWrR = true :=
    (Bool.and_eq_true_iff.mp (Bool.and_eq_true_iff.mp he).1).2
  change portOf P.toConfig (descOf (c.beat.outDesc ++ b.regs.parser.outDescR)) = P.dramPort
  rw [descOf_append]
  exact h.parser hw

theorem hostDram_step (h : Inv b) :
    ∀ d ∈ (next b.regs c).recvdDramRdFifo.contents, ToDram P d := by
  refine BasicFifo.forall_contents_next (i := recvdDramRdInputs b.regs) h.recvdDramRdFifo rfl
    h.hostDram ?_
  intro he
  have hv : b.regs.host.dramReqValid = true := (Bool.and_eq_true_iff.mp he).1
  exact h.host (.inr (.inr (.inr hv))) _

/-- The DRAM descriptor on offer goes to the DRAM port. -/
theorem toDram_dramWrDesc (h : Inv b) (hv : dramWrValid b.regs = true) :
    ToDram P (dramWrDesc b.regs) := by
  unfold dramWrDesc
  cases hs : dramSelect b.regs with
  | true => exact h.coreDram _ (h.dramSendFifo.dout_mem hs)
  | false =>
    have hs' : coreDramWrValidF b.regs = false := hs
    have hin : dramInValid b.regs = true := by simpa [dramWrValid, hs'] using hv
    exact h.hostDram _ (h.recvdDramRdFifo.dout_mem hin)

/-- A packet is taken only if its slot can be returned. -/
theorem ready_of_packet (h : Inv b) (hs : Stray b.regs = false) (ht : takesDesc b.regs = true)
    (hp : isPacket P (sendDesc b.regs) = true) : pktSentReady b.regs = true := by
  rw [takesDesc_eq hs, Bool.or_eq_true] at ht
  rcases ht with hd | hk
  · -- a DRAM descriptor is no packet
    simp only [dramWrReady, Bool.and_eq_true] at hd
    have hto : portOf P.toConfig (sendDesc b.regs) = P.dramPort := by
      rw [sendDesc, if_pos hd.1.2]
      exact toDram_dramWrDesc h hd.1.1
    simp [isPacket, hto] at hp
  · simp only [sendPktReady, Bool.and_eq_true] at hk
    exact hk.2

end Ports

/-! ## One cycle -/

section Step
variable {b : Bench P} {c : Cycle P}

theorem sendDescReady_next (h : Inv b) : sendDescReady (next b.regs c) =
    if sendDescReady b.regs then !sendDescValid b.regs else pktSent b.regs c :=
  h.dma.sendDescReady_step (dmaEnv b.regs c)

/-- A slot return is only offered while there is room for it. -/
theorem pktSentReady_of_pktSent (h : Inv b)
    (hp : (pktSent b.regs c && !pktSentIsDram b.regs) = true) : pktSentReady b.regs = true := by
  obtain ⟨hs, hd⟩ := Bool.and_eq_true_iff.mp hp
  refine h.room ?_ hd
  cases hr : sendDescReady b.regs with
  | false => rfl
  | true => exact absurd ((h.dma.not_pktSent (e := dmaEnv b.regs c) hr).symm.trans hs) (by simp)

/-- The control output register passes the slot returns on. -/
theorem returned_step (b : Bench P) (c : Cycle P) :
    (b.step c).returned ++ (b.step c).inReg =
      b.returned ++ (b.inReg ++
        (if b.regs.pktSentFifo.deque (pktSentInputs b.regs c) then [b.regs.pktSentFifo.dout]
          else []).map ctrlMsg) := by
  have hdeq : b.regs.pktSentFifo.deque (pktSentInputs b.regs c) =
      (pktSentValidF b.regs && ctrlOutReady b.regs c) := by
    change (pktSentValidF b.regs && (ctrlOutReady b.regs c && pktSentValidF b.regs)) = _
    cases pktSentValidF b.regs <;> simp
  rw [hdeq]
  simp only [Bench.step, Bench.inReg, next, ctrlOutReady, ctrlOutValid, ctrlOutData, ctrlSelect]
  rcases Bool.eq_false_or_eq_true (pktSentValidF b.regs) with hs | hs <;>
    rcases Bool.eq_false_or_eq_true (coreCtrlWrValidF b.regs) with hm | hm <;>
    rcases Bool.eq_false_or_eq_true b.regs.ctrlMAxisTvalidR with hv | hv <;>
    rcases Bool.eq_false_or_eq_true c.ctrlMAxisTready with hr | hr <;>
    simp [hs, hm, hv, hr]

/-- The packet being sent becomes a slot return, and a packet taken is the next one. -/
theorem sending_step (h : Inv b) :
    b.sending ++ (takes b.regs).filter (isPacket P) =
      (if b.regs.pktSentFifo.enque (pktSentInputs b.regs c) then [b.regs.latchedSendDesc]
        else []) ++ (b.step c).sending := by
  have hready' := sendDescReady_next (c := c) h
  have hlatched : (next b.regs c).latchedSendDesc =
      if takesDesc b.regs then sendDesc b.regs else b.regs.latchedSendDesc := rfl
  have henq : b.regs.pktSentFifo.enque (pktSentInputs b.regs c) =
      (pktSent b.regs c && isPacket P b.regs.latchedSendDesc && pktSentReady b.regs) := rfl
  unfold Bench.sending takes
  change _ = _ ++ if (!sendDescReady (next b.regs c) &&
    isPacket P (next b.regs c).latchedSendDesc) = true then
      [(next b.regs c).latchedSendDesc] else []
  rw [hready', hlatched, henq]
  cases hr : sendDescReady b.regs with
  | true =>
    have hnot : pktSent b.regs c = false := h.dma.not_pktSent hr
    have ht : takesDesc b.regs = sendDescValid b.regs := by rw [takesDesc, hr, Bool.and_true]
    rw [hnot, ht]
    cases sendDescValid b.regs with
    | false => simp
    | true => cases hp : isPacket P (sendDesc b.regs) <;> simp [hp]
  | false =>
    have ht : takesDesc b.regs = false := by rw [takesDesc, hr, Bool.and_false]
    rw [ht]
    cases hp : isPacket P b.regs.latchedSendDesc with
    | false => simp [hp]
    | true =>
      have hroom : pktSentReady b.regs = true := h.room hr hp
      cases hs : pktSent b.regs c <;> simp [hp, hroom]

theorem room_step (h : Inv b) (hc : b.Regular c)
    (hbusy : sendDescReady (next b.regs c) = false)
    (hp : isPacket P (next b.regs c).latchedSendDesc = true) :
    pktSentReady (next b.regs c) = true := by
  have hlatched : (next b.regs c).latchedSendDesc =
      if takesDesc b.regs then sendDesc b.regs else b.regs.latchedSendDesc := rfl
  rw [sendDescReady_next h] at hbusy
  have hclear : ((pktSentInputs b.regs c).rst || (pktSentInputs b.regs c).clear) = false := hc.1
  cases hr : sendDescReady b.regs with
  | true =>
    have hnot : pktSent b.regs c = false := h.dma.not_pktSent hr
    rw [hr, if_pos rfl, Bool.not_eq_false'] at hbusy
    have ht : takesDesc b.regs = true := by rw [takesDesc, hr, hbusy]; rfl
    rw [hlatched, if_pos ht] at hp
    refine BasicFifo.dinReady_next h.pktSentFifo hclear (ready_of_packet h hc.2 ht hp) ?_
    simp [BasicFifo.enque, pktSentInputs, hnot]
  | false =>
    rw [hr, if_neg Bool.false_ne_true] at hbusy
    have ht : takesDesc b.regs = false := by rw [takesDesc, hr, Bool.and_false]
    rw [hlatched, ht] at hp
    refine BasicFifo.dinReady_next h.pktSentFifo hclear (h.room hr hp) ?_
    simp [BasicFifo.enque, pktSentInputs, hbusy]

theorem Inv.step (h : Inv b) (hc : b.Regular c) : Inv (b.step c) where
  dramSendFifo := h.dramSendFifo.next P.dramAw_pos _
  recvdDramRdFifo := h.recvdDramRdFifo.next P.dramAw_pos (recvdDramRdInputs b.regs)
  pktSentFifo := h.pktSentFifo.next P.sendAw_pos _
  dma := h.dma.step _
  parser := h.parser.next _ _
  host := h.host.next _ _ _ _
  coreDram := coreDram_step h hc.1
  hostDram := hostDram_step h
  room := room_step h hc
  popped := by
    change b.popped ++ pops b.regs c = b.taken ++ takes b.regs
    rw [h.popped, pops_eq_takes hc.2]
  returned := by
    have hclear : ((pktSentInputs b.regs c).rst || (pktSentInputs b.regs c).clear) = false := hc.1
    have hfifo := BasicFifo.conservation (i := pktSentInputs b.regs c) h.pktSentFifo hclear
    have hsend := sending_step (c := c) h
    have htaken : (b.step c).taken = b.taken ++ takes b.regs := rfl
    have hcontents : (b.step c).regs.pktSentFifo =
        b.regs.pktSentFifo.next (pktSentInputs b.regs c) := rfl
    -- what leaves the queue enters the register, what enters it was being sent
    calc (b.step c).returned ++ ((b.step c).inReg ++
          ((b.step c).regs.pktSentFifo.contents ++ (b.step c).sending).map ctrlMsg)
        = b.returned ++ (b.inReg ++
            ((if b.regs.pktSentFifo.deque (pktSentInputs b.regs c) then [b.regs.pktSentFifo.dout]
              else []) ++ (b.regs.pktSentFifo.next (pktSentInputs b.regs c)).contents ++
              (b.step c).sending).map ctrlMsg) := by
          rw [← List.append_assoc, returned_step, hcontents]
          simp only [List.map_append, List.append_assoc]
      _ = b.returned ++ (b.inReg ++ (b.regs.pktSentFifo.contents ++ b.sending).map ctrlMsg) ++
            ((takes b.regs).filter (isPacket P)).map ctrlMsg := by
          rw [← hfifo, List.append_assoc, List.append_assoc, List.append_assoc, ← List.map_append,
            List.append_assoc, hsend]
          rfl
      _ = ((b.step c).taken.filter (isPacket P)).map ctrlMsg := by
          rw [h.returned, htaken, List.filter_append, List.map_append]

end Step

/-- **Each descriptor is sent once, and each slot returned once.**  In every run from
reset without core resets and without the case the arbiters overlook, the descriptors
`axis_dma` takes are those popped off the four queues, in every single cycle; the slot
returns transferred on `ctrl_m_axis`, followed by those in the output register and in
`pkt_sent_fifo` and the packet being sent, are those of the packets taken, in order; and
no slot return is offered to `pkt_sent_fifo` while it is not ready. -/
theorem each_sent_once {b₀ : Bench P} (hstart : b₀.Start) {cycles : List (Cycle P)}
    (hc : Meets Bench.step Bench.Regular b₀ cycles) :
    let b := run Bench.step b₀ cycles
    b.popped = b.taken ∧
      b.returned ++ (b.inReg ++ (b.regs.pktSentFifo.contents ++ b.sending).map ctrlMsg) =
        (b.taken.filter (isPacket P)).map ctrlMsg ∧
      ∀ c, b.Regular c → pops b.regs c = takes b.regs ∧
        ((pktSent b.regs c && !pktSentIsDram b.regs) = true → pktSentReady b.regs = true) := by
  intro b
  have hinv : Inv b := run_invariant (fun _ _ h hreg => h.step hreg) hstart.inv hc
  refine ⟨hinv.popped, hinv.returned, fun c hreg => ⟨pops_eq_takes hreg.2, ?_⟩⟩
  exact pktSentReady_of_pktSent hinv

/-! ## Runs of a small instance -/

/-- Two places in every queue. -/
def sampleConfig : Config where
  portWidth := 3
  portWidth_le := by decide
  dramPort := 6
  maskBits := 1
  maskBits_le := by decide
  slotCount := 4
  slotWidth := 3
  tagWidth := 5
  idTagWidth := 9
  sendAw := 1
  recvAw := 1
  dramAw := 1
  sendAw_pos := Nat.one_pos
  recvAw_pos := Nat.one_pos
  dramAw_pos := Nat.one_pos
  dramMRegType := 0

def sampleBench : Bench sampleConfig := ⟨.reset, false, [], [], []⟩

theorem sampleBench_start : sampleBench.Start :=
  ⟨Regs.reset_fresh, rfl, rfl, rfl⟩

/-- A cycle of the core with `ctrl_m_axis` ready or not; memory and stream are ready. -/
def coreCycle (beat : Beat) (ctrlMAxisTready : Bool) : Cycle sampleConfig :=
  ⟨false, beat, false, 0, false, 0, false, true, true, 0, true, true, ctrlMAxisTready⟩

/-- No descriptor. -/
def noBeat : Beat := ⟨0, false, false⟩

/-- The descriptor of a packet to port 0. -/
def packetDesc (slot len : Nat) : BitVec 64 := BitVec.ofNat 64 (slot * 2 ^ 16 + len)

def packetBeat (slot len : Nat) : Beat := ⟨packetDesc slot len, false, true⟩

/-- The two beats of a DRAM write of length 0, and the descriptor they give. -/
def dramBeats : List Beat :=
  [⟨BitVec.ofNat 64 (4 * 2 ^ 60), false, true⟩, ⟨0x1000, true, true⟩]

def dramWrite : BitVec 64 := BitVec.ofNat 64 (4 * 2 ^ 60 + 6 * 2 ^ 24)

/-- Two packets and a DRAM write between them, with `ctrl_m_axis` ready. -/
def mixedCycles : List (Cycle sampleConfig) :=
  ([noBeat, packetBeat 1 0] ++ dramBeats ++
    [packetBeat 2 1] ++ List.replicate 12 noBeat).map (coreCycle · true)

theorem each_sent_once_mixedCycles :
    let b := run Bench.step sampleBench mixedCycles
    b.taken = [packetDesc 1 0, dramWrite, packetDesc 2 1] ∧
      b.returned = [ctrlMsg (packetDesc 1 0), ctrlMsg (packetDesc 2 1)] ∧ b.popped = b.taken :=
  ⟨by decide +kernel, by decide +kernel,
    (each_sent_once sampleBench_start (show Meets Bench.step Bench.Regular sampleBench mixedCycles
      by decide +kernel)).1⟩

/-- Four packets with `ctrl_m_axis` stalled, then two DRAM writes. -/
def stalledCycles : List (Cycle sampleConfig) :=
  ([noBeat, packetBeat 1 0, noBeat, packetBeat 2 0, noBeat,
    packetBeat 3 0, noBeat, noBeat, packetBeat 4 1] ++
    dramBeats ++ dramBeats ++ List.replicate 9 noBeat).map (coreCycle · false)

/-- With `pkt_sent_fifo` full and DRAM descriptors waiting, the packet of slot 4 is
taken twice and never popped, and its `pkt_sent` finds the queue not ready. -/
theorem stray_take :
    let b := run Bench.step sampleBench stalledCycles
    sampleBench.Start ∧ (∀ c ∈ stalledCycles, c.coreReset = false) ∧
      b.taken = [packetDesc 1 0, packetDesc 2 0, packetDesc 3 0, dramWrite, packetDesc 4 1,
        packetDesc 4 1] ∧
      b.popped = [packetDesc 1 0, packetDesc 2 0, packetDesc 3 0, dramWrite] ∧
      b.regs.sendDataFifo.contents = [packetDesc 4 1] ∧ pktSentReady b.regs = false ∧
      b.returned ++ (b.inReg ++ (b.regs.pktSentFifo.contents ++ b.sending).map ctrlMsg) ≠
        (b.taken.filter (isPacket sampleConfig)).map ctrlMsg :=
  ⟨sampleBench_start, by decide +kernel⟩

end Rosebud.SendSide
