import Rosebud.HeaderRemover
import Rosebud.PcieSlots

/-! # `pcie_cont_write`

Writes to host memory.  The cores send packets that start with a PCIe address; the
header remover takes it off, the vendored sink stores the rest of the packet in a slot
of the scratchpad, and an order to write it to the host goes to the PCIe engine.  The
slot is chosen when the sink takes its next descriptor, before the packet is there:
`last_tx_slot` remembers it until the first word of the packet shows its header, which
is then kept for the slot.  The descriptor has a fixed length of 2048 bytes.

A host read of core memory enters here too: it is sent on to its core as a message, its
tag is kept for the core, and it is over when a packet of that core with tag 0 has been
written to the host.

The bench closes the module with the cores, which answer messages and send packets of
their own, with the sink (it takes a descriptor only between packets, stores at most the
length of the descriptor, drops the rest, and reports the packets in order) and with the
PCIe engine, which reports its orders in any order.
-/
namespace Rosebud
open Clocked PcieParams AxiStream

/-- `axis_write_desc_*`: an order to the sink. -/
structure AxisWriteDesc (p : PcieParams) where
  addr : BitVec p.ramAddrWidth
  len : BitVec 16
  tag : p.Slot

structure PcieContWrite (p : PcieParams) where
  txPcieTag : BitVec p.coreWidth → BitVec 32
  txPcieTagV : BitVec p.coreWidth → Bool
  txPcieAddr : p.Slot → BitVec 64
  txCoreTag : p.Slot → p.CoreTag
  txSlot : BitVec p.slotCount
  lastTxSlot : p.Slot
  lastTxSlotV : Bool
  coresCtrlMTdata : BitVec 128
  coresCtrlMTdest : BitVec p.coreWidth
  coresCtrlMTvalid : Bool
  pcieDmaWriteDesc : PcieDesc p
  pcieDmaWriteDescValid : Bool
  hostStatusTag : BitVec 32
  hostStatusValid : Bool
  pcieDmaWriteDescFifo : BasicFifo p.slotWidth (PcieDesc p)
deriving Inhabited

namespace PcieContWrite

structure Inputs (p : PcieParams) where
  rst : Bool
  hostValid : Bool
  host : HostDesc
  coresCtrlMTready : Bool
  axisWriteDataTvalid : Bool
  txHeader : BitVec 64
  axisWriteDescReady : Bool
  axisStatusValid : Bool
  axisStatusTag : p.Slot
  axisStatusLen : BitVec 16
  axisStatusUser : p.CoreTag
  pcieReady : Bool
  pcieStatusValid : Bool
  pcieStatusTag : p.Tag

variable {p : PcieParams}

/-! ## The module -/

section Module

/-- The core a scratchpad tag belongs to, and its own tag. -/
def coreOf (tag : p.CoreTag) : BitVec p.coreWidth := tag.extractLsb' p.coreTagWidth p.coreWidth

def ownTag (tag : p.CoreTag) : BitVec p.coreTagWidth := tag.extractLsb' 0 p.coreTagWidth

/-- `host_wr_dest_core`. -/
def hostWrDestCore (d : HostDesc) : BitVec p.coreWidth :=
  d.ramAddr.extractLsb' p.coreAddrWidth p.coreWidth

variable (p) in
/-- `cores_ctrl_m_tdata_r`: the PCIe address, the address in the core, and the length. -/
def ctrlMessage (d : HostDesc) : BitVec 128 :=
  d.pcieAddr ++ (d.ramAddr.extractLsb' 0 p.coreAddrWidth).setWidth 32 ++ d.len.setWidth 32

variable (s : PcieContWrite p) (i : Inputs p)

def selectedTxSlot : p.Slot := (PcieSlots.select s.txSlot).1

def axisWriteDesc : AxisWriteDesc p := ⟨regionStart s.selectedTxSlot, 2048, s.selectedTxSlot⟩

def axisWriteDescValid : Bool := s.txSlot != 0

/-- One request per core. -/
def hostReady : Bool := i.coresCtrlMTready && !s.txPcieTagV (hostWrDestCore i.host)

def hostAccept : Bool := i.hostValid && s.hostReady i

def descAccept : Bool := s.axisWriteDescValid && i.axisWriteDescReady

def txDoneCoreId : BitVec p.coreWidth := coreOf (s.txCoreTag (slotOf i.pcieStatusTag))

def txDoneCoreTag : BitVec p.coreTagWidth := ownTag (s.txCoreTag (slotOf i.pcieStatusTag))

/-- A packet with tag 0 was written to the host. -/
def hostDone : Bool := i.pcieStatusValid && s.txDoneCoreTag i == 0

def fifoInputs : BasicFifo.Inputs (PcieDesc p) :=
  ⟨i.rst, false, s.pcieDmaWriteDescValid, s.pcieDmaWriteDesc, i.pcieReady⟩

/-- The registers after the clock edge. -/
def next : PcieContWrite p where
  txPcieTag :=
    if s.hostAccept i then Function.update s.txPcieTag (hostWrDestCore i.host) i.host.tag
    else s.txPcieTag
  txPcieTagV :=
    if i.rst then fun _ => false
    else
      let accepted :=
        if s.hostAccept i then Function.update s.txPcieTagV (hostWrDestCore i.host) true
        else s.txPcieTagV
      -- the later assignment wins, also for a request accepted in this cycle
      if s.hostDone i then Function.update accepted (s.txDoneCoreId i) false else accepted
  txPcieAddr :=
    if s.lastTxSlotV && i.axisWriteDataTvalid then
      Function.update s.txPcieAddr s.lastTxSlot i.txHeader
    else s.txPcieAddr
  txCoreTag :=
    if i.axisStatusValid then Function.update s.txCoreTag i.axisStatusTag i.axisStatusUser
    else s.txCoreTag
  txSlot :=
    if i.rst then BitVec.allOnes p.slotCount
    else PcieSlots.update s.txSlot (s.descAccept i) i.pcieStatusValid i.pcieStatusTag.toNat
  lastTxSlot := if s.descAccept i then s.selectedTxSlot else s.lastTxSlot
  lastTxSlotV :=
    !i.rst && (if s.lastTxSlotV && i.axisWriteDataTvalid then false
      else s.descAccept i || s.lastTxSlotV)
  coresCtrlMTdata := if s.hostAccept i then ctrlMessage p i.host else s.coresCtrlMTdata
  coresCtrlMTdest := if s.hostAccept i then hostWrDestCore i.host else s.coresCtrlMTdest
  coresCtrlMTvalid := !i.rst && s.hostAccept i
  pcieDmaWriteDesc :=
    if i.axisStatusValid then
      { pcieAddr := s.txPcieAddr i.axisStatusTag
        ramAddr := regionStart i.axisStatusTag
        len := i.axisStatusLen
        tag := tagOf i.axisStatusTag }
    else s.pcieDmaWriteDesc
  pcieDmaWriteDescValid := !i.rst && i.axisStatusValid
  hostStatusTag := if s.hostDone i then s.txPcieTag (s.txDoneCoreId i) else s.hostStatusTag
  -- nothing else lowers it
  hostStatusValid :=
    !i.rst && (if s.hostDone i then s.txPcieTagV (s.txDoneCoreId i) else s.hostStatusValid)
  pcieDmaWriteDescFifo := s.pcieDmaWriteDescFifo.next (s.fifoInputs i)

end Module

/-- The registers a reset leaves; the tables and the descriptors hold anything. -/
structure Fresh (s : PcieContWrite p) : Prop where
  txSlot : s.txSlot = BitVec.allOnes p.slotCount
  txPcieTagV : ∀ core, s.txPcieTagV core = false
  lastTxSlot : s.lastTxSlotV = false
  ctrl : s.coresCtrlMTvalid = false
  pcieDesc : s.pcieDmaWriteDescValid = false
  hostStatus : s.hostStatusValid = false
  fifo : s.pcieDmaWriteDescFifo.Fresh

theorem txSlot_ne_zero {s : PcieContWrite p} {i : Inputs p} (h : s.descAccept i = true) :
    s.txSlot ≠ 0 := by
  intro hz
  simp [descAccept, axisWriteDescValid, hz] at h

/-! ## The bench -/

section Bench
variable (p) (W : Nat)

/-- The sideband of the packets of the cores. -/
abbrev TxSide := HeaderRemover.Side 8 (p.coreWidth + p.coreTagWidth)

/-- What the sink reads off a word. -/
abbrev TxView := View W (HeaderRemover.Tag 8 (p.coreWidth + p.coreTagWidth))

/-- A packet of a core: the request it answers, counted in the order of their acceptance,
or none. -/
structure Sent where
  packet : Packet W (TxSide p)
  answers : Option Nat

/-- The sink: without a descriptor, storing a packet, or dropping the rest of one. -/
inductive Sink where
  | idle
  | write (desc : AxisWriteDesc p) (words : List (TxView p W))
  | drop

/-- A stored packet, not yet reported. -/
structure Stored where
  desc : AxisWriteDesc p
  words : List (TxView p W)

structure Bench where
  regs : PcieContWrite p
  front : HeaderRemover.Bench W 8 8 (p.coreWidth + p.coreTagWidth)
  sink : Sink p W
  stored : List (Stored p W)
  writing : List (PcieDesc p)
  /-- The packets of the cores and the requests of the host so far. -/
  sent : List (Sent p W)
  requests : List HostDesc
  /-- The message a core has not answered yet, with the number of the request. -/
  asked : BitVec p.coreWidth → Option (Nat × BitVec 128)
  /-- The request of a core that had no status yet. -/
  pending : BitVec p.coreWidth → Option Nat
  /-- The orders made for the PCIe engine so far. -/
  orders : List (PcieDesc p)
  /-- Which packet the order with a slot's tag is for. -/
  holder : p.Slot → Nat
  /-- The packets written to the host, and the cycles with a status for it. -/
  completed : List Nat
  statuses : List (BitVec 32)

/-- What the surroundings do in a cycle. -/
structure Cycle where
  hostValid : Bool
  host : HostDesc
  coresCtrlMTready : Bool
  /-- A packet a core hands to the stream, and the core that answers with it. -/
  send : Option (Packet W (TxSide p) × Option (BitVec p.coreWidth))
  offer : Bool
  idle : Beat W (TxSide p)
  dataReady : Bool
  descReady : Bool
  report : Bool
  pcieReady : Bool
  complete : Option Nat

end Bench

variable {W : Nat}

/-- The bytes of some words. -/
def byteCount (words : List (TxView p W)) : Nat := (words.flatMap View.bytes).length

namespace Stored

/-- The number of bytes stored: never more than the descriptor allows. -/
def len (x : Stored p W) : Nat := min x.desc.len.toNat (byteCount x.words)

/-- The sideband of the last word. -/
def user (x : Stored p W) : p.CoreTag := (x.words.getLast?.map (·.side.2)).getD 0

end Stored

/-- The bytes of a packet after its header. -/
def payload (q : Packet W (TxSide p)) : List (BitVec 8) := q.bytes.drop 8

/-- **What a core returns for a message**: its PCIe address, then as many bytes as it
asks for, with tag 0. -/
def Answers (core : BitVec p.coreWidth) (message : BitVec 128) (q : Packet W (TxSide p)) : Prop :=
  HeaderRemover.headerOf 8 q = message.extractLsb' 64 64 ∧
    (payload q).length = (message.extractLsb' 0 16).toNat ∧
    q.side.tuser = core ++ (0 : BitVec p.coreTagWidth)

instance (core : BitVec p.coreWidth) (message : BitVec 128) (q : Packet W (TxSide p)) :
    Decidable (Answers core message q) :=
  inferInstanceAs (Decidable (_ ∧ _ ∧ _))

namespace Bench

/-- The number of the request a core answers with a packet. -/
def answering (b : Bench p W) (core : BitVec p.coreWidth) (q : Packet W (TxSide p)) :
    Option (Nat × BitVec 128) :=
  (b.asked core).filter fun x => decide (Answers core x.2 q)

/-- A core hands a packet to the stream.  A packet that does not fit the message of the
core is not an answer, and is not sent as one. -/
def supply (b : Bench p W) (c : Cycle p W) : Bench p W :=
  match c.send with
  | none => b
  | some (q, none) =>
    { b with
      front := { b.front with pending := b.front.pending ++ q.beats }
      sent := b.sent ++ [⟨q, none⟩] }
  | some (q, some core) =>
    match b.answering core q with
    | none => b
    | some (n, _) =>
      { b with
        front := { b.front with pending := b.front.pending ++ q.beats }
        sent := b.sent ++ [⟨q, some n⟩]
        asked := Function.update b.asked core none }

/-- The sink takes words only with a descriptor, and a descriptor only between packets. -/
def dataReady (b : Bench p W) (c : Cycle p W) : Bool :=
  match b.sink with
  | .idle => false
  | .write _ _ | .drop => c.dataReady

def descReady (b : Bench p W) (c : Cycle p W) : Bool :=
  match b.sink with
  | .idle => c.descReady
  | .write _ _ | .drop => false

/-- The cycle of the header remover. -/
def frontCycle (b : Bench p W) (c : Cycle p W) :
    HeaderRemover.Cycle W 8 (p.coreWidth + p.coreTagWidth) :=
  ⟨c.offer, c.idle, b.dataReady c⟩

def frontInputs (b : Bench p W) (c : Cycle p W) :
    HeaderRemover.Inputs W 8 (p.coreWidth + p.coreTagWidth) :=
  b.front.inputs (b.frontCycle c)

def dataValid (b : Bench p W) (c : Cycle p W) : Bool :=
  HeaderRemover.mAxisTvalid true b.front.regs (b.frontInputs c)

/-- The word the sink takes. -/
def word (b : Bench p W) (c : Cycle p W) : Option (TxView p W) :=
  if b.dataValid c && b.dataReady c then
    some (HeaderRemover.mAxis true b.front.regs (b.frontInputs c)).view
  else none

/-- The packet the sink reports. -/
def reporting (b : Bench p W) (c : Cycle p W) : Option (Stored p W) :=
  if c.report then b.stored.head? else none

/-- The order the PCIe engine reports. -/
def completing (b : Bench p W) (c : Cycle p W) : Option (PcieDesc p) :=
  c.complete.bind (b.writing[·]?)

def inputs (b : Bench p W) (c : Cycle p W) : Inputs p where
  rst := false
  hostValid := c.hostValid
  host := c.host
  coresCtrlMTready := c.coresCtrlMTready
  axisWriteDataTvalid := b.dataValid c
  txHeader := HeaderRemover.header b.front.regs (b.frontInputs c)
  axisWriteDescReady := b.descReady c
  axisStatusValid := (b.reporting c).isSome
  axisStatusTag := ((b.reporting c).map (·.desc.tag)).getD 0
  axisStatusLen := BitVec.ofNat 16 (((b.reporting c).map Stored.len).getD 0)
  axisStatusUser := ((b.reporting c).map Stored.user).getD 0
  pcieReady := c.pcieReady
  pcieStatusValid := (b.completing c).isSome
  pcieStatusTag := ((b.completing c).map (·.tag)).getD 0

/-- The sink after a word. -/
def sinkNext (b : Bench p W) (c : Cycle p W) : Sink p W :=
  match b.sink, b.word c with
  | .idle, _ => if b.regs.descAccept (b.inputs c) then .write b.regs.axisWriteDesc [] else .idle
  | sink, none => sink
  | .write desc words, some v =>
    if v.tlast then .idle
    else if desc.len.toNat ≤ byteCount (words ++ [v]) then .drop
    else .write desc (words ++ [v])
  | .drop, some v => if v.tlast then .idle else .drop

/-- The packet whose storing ends with this word: its last one, or the one that uses up
the length of the descriptor. -/
def storing (b : Bench p W) (c : Cycle p W) : List (Stored p W) :=
  match b.sink, b.word c with
  | .write desc words, some v =>
    if v.tlast || decide (desc.len.toNat ≤ byteCount (words ++ [v])) then
      [⟨desc, words ++ [v]⟩]
    else []
  | _, _ => []

/-- The orders the PCIe engine takes from the queue. -/
def newWrites (b : Bench p W) (c : Cycle p W) : List (PcieDesc p) :=
  if b.regs.pcieDmaWriteDescFifo.doutValid && c.pcieReady then
    [b.regs.pcieDmaWriteDescFifo.dout]
  else []

/-- The order made for the reported packet. -/
def ordering (b : Bench p W) (c : Cycle p W) : List (PcieDesc p) :=
  if (b.reporting c).isSome then [(b.regs.next (b.inputs c)).pcieDmaWriteDesc] else []

/-- The clock edge. -/
def clock (b : Bench p W) (c : Cycle p W) : Bench p W where
  regs := b.regs.next (b.inputs c)
  front := b.front.step true (b.frontCycle c)
  sink := b.sinkNext c
  stored := b.stored.drop (b.reporting c).isSome.toNat ++ b.storing c
  writing := PcieSlots.dropReported b.writing c.complete (b.completing c).isSome ++ b.newWrites c
  sent := b.sent
  requests := if b.regs.hostAccept (b.inputs c) then b.requests ++ [c.host] else b.requests
  asked :=
    if b.regs.coresCtrlMTvalid && c.coresCtrlMTready then
      Function.update b.asked b.regs.coresCtrlMTdest
        (some (b.requests.length - 1, b.regs.coresCtrlMTdata))
    else b.asked
  pending :=
    let accepted :=
      if b.regs.hostAccept (b.inputs c) then
        Function.update b.pending (hostWrDestCore c.host) (some b.requests.length)
      else b.pending
    if b.regs.hostDone (b.inputs c) then
      Function.update accepted (b.regs.txDoneCoreId (b.inputs c)) none
    else accepted
  orders := b.orders ++ b.ordering c
  holder :=
    if (b.reporting c).isSome then
      Function.update b.holder (b.inputs c).axisStatusTag b.orders.length
    else b.holder
  completed := b.completed ++ (b.completing c).toList.map fun d => b.holder (slotOf d.tag)
  statuses := if b.regs.hostStatusValid then b.statuses ++ [b.regs.hostStatusTag] else b.statuses

def step (b : Bench p W) (c : Cycle p W) : Bench p W := (b.supply c).clock c

/-- A bench after a reset, with nothing in flight. -/
structure Start (b : Bench p W) : Prop where
  regs : b.regs.Fresh
  front : b.front.regs.state = .hdr
  stream : b.front.pending = []
  sink : b.sink = .idle
  stored : b.stored = []
  writing : b.writing = []
  sent : b.sent = []
  requests : b.requests = []
  asked : ∀ core, b.asked core = none
  pending : ∀ core, b.pending core = none
  orders : b.orders = []
  completed : b.completed = []
  statuses : b.statuses = []

@[simp] theorem rst_inputs (b : Bench p W) (c : Cycle p W) : (b.inputs c).rst = false := rfl

@[simp] theorem host_inputs (b : Bench p W) (c : Cycle p W) : (b.inputs c).host = c.host := rfl

/-! ## The slots in use -/

/-- The slot given to the sink. -/
def sinkSlots (b : Bench p W) : List p.Slot :=
  match b.sink with
  | .write desc _ => [desc.tag]
  | .idle | .drop => []

/-- The orders to the PCIe engine: just made, queued, or in the engine. -/
def pcieDescs (b : Bench p W) : List (PcieDesc p) :=
  (if b.regs.pcieDmaWriteDescValid then [b.regs.pcieDmaWriteDesc] else []) ++
    b.regs.pcieDmaWriteDescFifo.contents ++ b.writing

/-- The slots given to the sink or waiting for the PCIe engine. -/
def held (b : Bench p W) : List p.Slot :=
  b.sinkSlots ++ b.stored.map (·.desc.tag) ++ b.pcieDescs.map (slotOf ·.tag)

/-- A descriptor of the sink: the region of its slot. -/
def RegionDesc (d : AxisWriteDesc p) : Prop := d.addr = regionStart d.tag ∧ d.len = 2048

/-- An order to the PCIe engine lies in the region of its slot. -/
structure InRegion (d : PcieDesc p) : Prop where
  tag : d.tag = tagOf (slotOf d.tag)
  ramAddr : d.ramAddr = regionStart (slotOf d.tag)
  len : d.len.toNat ≤ 2048

/-- **What the bookkeeping keeps.** -/
structure Booked (b : Bench p W) : Prop where
  fifo : b.regs.pcieDmaWriteDescFifo.Valid
  room : b.regs.pcieDmaWriteDescValid = true → b.regs.pcieDmaWriteDescFifo.dinReady = true
  balanced : PcieSlots.Balanced b.regs.txSlot b.held
  sinkOk : ∀ desc words, b.sink = .write desc words → RegionDesc desc
  storedOk : ∀ x ∈ b.stored, RegionDesc x.desc
  pcieOk : ∀ d ∈ b.pcieDescs, InRegion d

theorem Start.booked {b : Bench p W} (h : b.Start) : b.Booked := by
  have hpcie : b.pcieDescs = [] := by
    simp [pcieDescs, h.regs.pcieDesc, h.regs.fifo.contents_eq, h.writing]
  constructor
  · exact h.regs.fifo.valid
  · simp [h.regs.pcieDesc]
  · simp only [held, hpcie, sinkSlots, h.sink, h.stored, h.regs.txSlot]
    exact PcieSlots.balanced_allOnes
  · simp [h.sink]
  · simp [h.stored]
  · simp [hpcie]

section Supply
variable (b : Bench p W) (c : Cycle p W)

/-- The packet `x` is handed to the stream, and the cores are asked what `asked` says. -/
def handOver (x : Sent p W) (asked : BitVec p.coreWidth → Option (Nat × BitVec 128)) :
    Bench p W :=
  { b with
    front := { b.front with pending := b.front.pending ++ x.packet.beats }
    sent := b.sent ++ [x]
    asked := asked }

/-- A packet of a core's own, or the answer to what a core was asked; what the other cores
are asked stays. -/
structure Supplies (x : Sent p W) (asked : BitVec p.coreWidth → Option (Nat × BitVec 128)) :
    Prop where
  kept : ∀ core n m, asked core = some (n, m) → b.asked core = some (n, m)
  answer : ∀ n, x.answers = some n → ∃ core m, b.asked core = some (n, m) ∧
    asked core = none ∧ Answers core m x.packet
  left : ∀ core n m, b.asked core = some (n, m) →
    asked core = some (n, m) ∨ x.answers = some n

theorem supply_cases :
    b.supply c = b ∨ ∃ x asked, b.Supplies x asked ∧ b.supply c = b.handOver x asked := by
  unfold supply
  split
  · exact .inl rfl
  · rename_i q _
    refine .inr ⟨⟨q, none⟩, b.asked, ⟨fun _ _ _ h => h, ?_, fun _ _ _ h => .inl h⟩, rfl⟩
    exact fun n hn => absurd hn.symm (Option.some_ne_none n)
  · rename_i q core _
    split
    · exact .inl rfl
    · rename_i n message hn
      obtain ⟨hasked, hans⟩ := Option.filter_eq_some_iff.mp hn
      refine .inr ⟨⟨q, some n⟩, Function.update b.asked core none, ⟨?_, ?_, ?_⟩, rfl⟩
      · intro core' k m hk
        by_cases hc : core' = core
        · rw [hc, Function.update_self] at hk
          exact absurd hk.symm (Option.some_ne_none _)
        · rwa [Function.update_of_ne hc] at hk
      · rintro _ ⟨⟩
        exact ⟨core, message, hasked, Function.update_self _ _ _, of_decide_eq_true hans⟩
      · intro core' k m hk
        by_cases hc : core' = core
        · rw [hc, hasked] at hk
          exact .inr (congrArg (Option.map Prod.fst) hk)
        · exact .inl ((Function.update_of_ne hc _ _).trans hk)

/-- A packet handed to the stream changes nothing behind the stream. -/
theorem supply_frame : ∃ front sent asked,
    b.supply c = { b with front := front, sent := sent, asked := asked } := by
  rcases b.supply_cases c with heq | ⟨x, asked, -, heq⟩
  · exact ⟨b.front, b.sent, b.asked, heq⟩
  · exact ⟨_, _, _, heq⟩

theorem regs_supply : (b.supply c).regs = b.regs := by
  obtain ⟨front, sent, asked, heq⟩ := b.supply_frame c
  rw [heq]

variable {b}

theorem Booked.supply (h : b.Booked) : (b.supply c).Booked := by
  obtain ⟨front, sent, asked, heq⟩ := b.supply_frame c
  rw [heq]
  exact ⟨h.fifo, h.room, h.balanced, h.sinkOk, h.storedOk, h.pcieOk⟩

end Supply

/-! ## The clock edge -/

section Edge
variable {b : Bench p W} (c : Cycle p W)

/-- The sink takes a descriptor only when it is idle. -/
theorem sink_of_descAccept (h : b.regs.descAccept (b.inputs c) = true) : b.sink = .idle := by
  have hready : b.descReady c = true := (Bool.and_eq_true_iff.mp h).2
  unfold descReady at hready
  split at hready
  · assumption
  · exact absurd hready (by simp)
  · exact absurd hready (by simp)

theorem word_idle (h : b.sink = .idle) : b.word c = none := by
  simp [word, dataReady, h]

/-- The slot of the sink: one is given to it, or goes to the stored packets. -/
theorem count_sinkSlots_clock (slot : p.Slot) :
    (b.clock c).sinkSlots.count slot + ((b.storing c).map (·.desc.tag)).count slot =
      b.sinkSlots.count slot +
        (if b.regs.descAccept (b.inputs c) then [b.regs.selectedTxSlot] else []).count slot := by
  unfold sinkSlots clock sinkNext storing
  cases hs : b.sink with
  | idle =>
    cases hacc : b.regs.descAccept (b.inputs c) <;> simp [axisWriteDesc]
  | drop =>
    have hno : b.regs.descAccept (b.inputs c) = false := by
      by_contra h
      simp [sink_of_descAccept c (Bool.eq_true_of_not_eq_false h)] at hs
    cases hw : b.word c with
    | none => simp [hno]
    | some v => cases hl : v.tlast <;> simp [hno, hl]
  | write desc words =>
    have hno : b.regs.descAccept (b.inputs c) = false := by
      by_contra h
      simp [sink_of_descAccept c (Bool.eq_true_of_not_eq_false h)] at hs
    cases hw : b.word c with
    | none => simp [hno]
    | some v =>
      cases hl : v.tlast with
      | true => simp [hno, hl]
      | false =>
        by_cases hfull : desc.len.toNat ≤ byteCount (words ++ [v]) <;> simp [hno, hl, hfull]

theorem reporting_eq_some {x : Stored p W} (h : b.reporting c = some x) :
    ∃ rest, b.stored = x :: rest := by
  unfold reporting at h
  split at h
  · exact List.head?_eq_some_iff.mp h
  · exact absurd h (by simp)

/-- An order is made for the first stored packet. -/
theorem reporting_of_ordering {d : PcieDesc p} (hd : d ∈ b.ordering c) :
    ∃ y more, b.reporting c = some y ∧ b.stored = y :: more ∧ slotOf d.tag = y.desc.tag ∧
      d.len = BitVec.ofNat 16 y.len := by
  unfold ordering at hd
  cases hr : b.reporting c with
  | none => simp [hr] at hd
  | some y =>
    obtain ⟨more, hmore⟩ := reporting_eq_some c hr
    obtain rfl : d = ⟨b.regs.txPcieAddr y.desc.tag, regionStart y.desc.tag,
        BitVec.ofNat 16 y.len, tagOf y.desc.tag⟩ := by
      simpa [hr, next, inputs] using hd
    exact ⟨y, more, rfl, hmore, slotOf_tagOf _, rfl⟩

/-- What is reported leaves the stored packets. -/
theorem stored_eq : b.stored =
    (b.reporting c).toList ++ b.stored.drop (b.reporting c).isSome.toNat := by
  cases hr : b.reporting c with
  | none => simp
  | some x =>
    obtain ⟨rest, hrest⟩ := reporting_eq_some c hr
    simp [hrest]

theorem mem_writing {d : PcieDesc p} (hd : b.completing c = some d) : d ∈ b.writing := by
  obtain ⟨k, -, hk⟩ := Option.bind_eq_some_iff.mp hd
  exact List.mem_of_getElem? hk

theorem mem_held_of_pcie {d : PcieDesc p} (hd : d ∈ b.pcieDescs) : slotOf d.tag ∈ b.held :=
  List.mem_append_right _ (List.mem_map_of_mem hd)

theorem map_ordering : (b.ordering c).map (slotOf ·.tag) =
    (b.reporting c).toList.map (·.desc.tag) := by
  unfold ordering
  cases hr : b.reporting c <;> simp [next, inputs, hr]

variable (h : b.Booked)
include h

theorem Booked.pcieDescs_clock :
    ((b.clock c).pcieDescs ++ (b.completing c).toList).Perm (b.ordering c ++ b.pcieDescs) := by
  have hperm : b.writing.Perm ((b.completing c).toList ++
      PcieSlots.dropReported b.writing c.complete (b.completing c).isSome) :=
    PcieSlots.dropReported_perm fun _ hx => hx
  have hnew : (b.newWrites c).map id =
      if b.regs.pcieDmaWriteDescFifo.deque (b.regs.fifoInputs (b.inputs c)) then
        [b.regs.pcieDmaWriteDescFifo.dout] else [] := by
    rw [List.map_id]
    rfl
  have hstage := PcieSlots.stage_perm h.fifo (i := b.regs.fifoInputs (b.inputs c)) rfl h.room
    hperm id hnew (b.ordering c)
  simp only [List.map_id] at hstage
  exact hstage

/-- The slots in use after the edge: the one the sink took is added, the one the engine
reported is gone. -/
theorem Booked.count_held_clock (slot : p.Slot) :
    (b.clock c).held.count slot + ((b.completing c).toList.map (slotOf ·.tag)).count slot =
      b.held.count slot +
        (if b.regs.descAccept (b.inputs c) then [b.regs.selectedTxSlot] else []).count slot := by
  have hsink := count_sinkSlots_clock (b := b) c slot
  have hpcie := ((h.pcieDescs_clock c).map (slotOf ·.tag)).count_eq slot
  have hstored := congrArg (fun l => (l.map (·.desc.tag)).count slot) (stored_eq (b := b) c)
  rw [List.map_append, List.map_append, map_ordering] at hpcie
  simp only [held, clock, List.map_append, List.count_append] at hsink hpcie hstored ⊢
  omega

theorem Booked.balanced_clock :
    PcieSlots.Balanced (b.clock c).regs.txSlot (b.clock c).held := by
  refine h.balanced.update (slotOf (b.inputs c).pcieStatusTag) txSlot_ne_zero ?_ ?_
  · intro hdone
    obtain ⟨d, hd⟩ := Option.isSome_iff_exists.mp hdone
    have hmem : d ∈ b.pcieDescs := List.mem_append_right _ (mem_writing c hd)
    have htag : (b.inputs c).pcieStatusTag = d.tag := by simp [inputs, hd]
    rw [htag]
    refine ⟨mem_held_of_pcie hmem, ?_⟩
    rw [(h.pcieOk d hmem).tag, slotOf_tagOf, toNat_tagOf]
  · intro slot
    have hcount := h.count_held_clock c slot
    have hback : ((b.completing c).toList.map (slotOf ·.tag)).count slot =
        ((b.inputs c).pcieStatusValid &&
          decide (slot = slotOf (b.inputs c).pcieStatusTag)).toNat := by
      cases hd : b.completing c with
      | none => simp [inputs, hd]
      | some d => by_cases hs : slot = slotOf d.tag <;> simp [inputs, hd, hs, Ne.symm]
    rw [← hback, ← PcieSlots.count_given]
    exact hcount

theorem Booked.storedOk_clock : ∀ x ∈ (b.clock c).stored, RegionDesc x.desc := by
  intro x hx
  rcases List.mem_append.mp hx with hold | hnew
  · exact h.storedOk x (List.mem_of_mem_drop hold)
  · unfold storing at hnew
    split at hnew
    · rename_i desc words v hs hw
      split at hnew
      · rw [List.mem_singleton.mp hnew]
        exact h.sinkOk desc words hs
      · exact absurd hnew List.not_mem_nil
    · exact absurd hnew List.not_mem_nil

theorem Booked.sinkOk_clock {desc : AxisWriteDesc p} {words : List (TxView p W)}
    (hs' : (b.clock c).sink = .write desc words) : RegionDesc desc := by
  change b.sinkNext c = _ at hs'
  unfold sinkNext at hs'
  split at hs'
  · split at hs'
    · obtain ⟨rfl, -⟩ := Sink.write.inj hs'
      exact ⟨rfl, rfl⟩
    · exact absurd hs' (by simp)
  · exact h.sinkOk desc words (by rw [← hs'])
  · rename_i desc' words' v hs hw
    split at hs'
    · exact absurd hs' (by simp)
    · split at hs'
      · exact absurd hs' (by simp)
      · obtain ⟨rfl, -⟩ := Sink.write.inj hs'
        exact h.sinkOk desc' words' hs
  · split at hs' <;> exact absurd hs' (by simp)

/-- The number a packet is reported with is what was stored of it. -/
theorem Booked.len_le {x : Stored p W} (hx : x ∈ b.stored) : x.len ≤ 2048 := by
  have hlen := (h.storedOk x hx).2
  unfold Stored.len
  rw [hlen]
  exact Nat.min_le_left _ _

theorem Booked.pcieOk_clock : ∀ d ∈ (b.clock c).pcieDescs, InRegion d := by
  intro d hd
  have hmem := (h.pcieDescs_clock c).subset (List.mem_append_left _ hd)
  rcases List.mem_append.mp hmem with hnew | hold
  · unfold ordering at hnew
    cases hr : b.reporting c with
    | none => simp [hr] at hnew
    | some x =>
      obtain ⟨rest, hrest⟩ := reporting_eq_some c hr
      have hle := h.len_le (x := x) (by simp [hrest])
      obtain rfl : d = ⟨b.regs.txPcieAddr x.desc.tag, regionStart x.desc.tag,
          BitVec.ofNat 16 x.len, tagOf x.desc.tag⟩ := by
        simpa [hr, next, inputs] using hnew
      constructor
      · simp
      · simp
      · rw [BitVec.toNat_ofNat, Nat.mod_eq_of_lt (by omega)]
        exact hle
  · exact h.pcieOk d hold

/-- **The bookkeeping is kept by a clock edge.** -/
theorem Booked.clock : (b.clock c).Booked := by
  have hbal := h.balanced_clock c
  have hlen := hbal.length_le
  simp only [held, pcieDescs, List.length_append, List.length_map] at hlen
  constructor
  · exact h.fifo.next p.slotWidth_pos (b.regs.fifoInputs (b.inputs c))
  · intro hvalid
    refine BasicFifo.dinReady_next_of_lt h.fifo rfl ?_
    rw [hvalid, if_pos rfl] at hlen
    simp only [List.length_singleton] at hlen
    change (b.clock c).regs.pcieDmaWriteDescFifo.contents.length < _
    omega
  · exact hbal
  · intro desc words hs
    exact h.sinkOk_clock c hs
  · exact h.storedOk_clock c
  · exact h.pcieOk_clock c

end Edge

end Bench
end PcieContWrite
end Rosebud
