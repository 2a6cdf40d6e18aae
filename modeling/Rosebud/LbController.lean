import Rosebud.Clocked
import Rosebud.BasicFifo
import Rosebud.AxisArbMux
import Rosebud.SlotKeeper

/-! # `lb_controller`

The side of the load balancer that talks to the cores.  Control messages of four
types arrive from them: slots coming back (0), packets that leave (1), packets meant
for another core (2) and the number of slots a core starts with (3).  Types 0 and 3
go to the slot keepers, one register later; type 1 waits in `pkt_done_fifo` and type 2
in the FIFO of its destination core, until a free slot of that core is found for it.

The controller says whether it takes a message before it knows where it belongs:
`ctrl_s_axis_tready` for type 2 is high as soon as the FIFO of *some* core has room.
`nothing_lost_of_room` gives the backlog the senders have to respect so that nothing
is lost, and `full_destination_loses` a run that does not respect it.
-/
namespace Rosebud

/-- The parameters of the load balancer. -/
structure LbConfig where
  coreCount : Nat
  slotCount : Nat
  loopbackPort : Nat
  loopbackCount : Nat
  one_lt_slotCount : 1 < slotCount
  slotCount_lt : slotCount < 2 ^ 32

namespace LbConfig
variable (P : LbConfig)

def coreIdWidth : Nat := clog2 P.coreCount

def slotWidth : Nat := clog2 (P.slotCount + 1)

def tagWidth : Nat := if 5 < P.slotWidth then P.slotWidth else 5

/-- `ADDR_WIDTH` of the FIFOs of depth `SLOT_COUNT`. -/
def fifoWidth : Nat := clog2 P.slotCount

theorem fifoWidth_pos : 0 < P.fifoWidth := clog2_pos P.one_lt_slotCount

theorem slotCount_lt_two_pow : P.slotCount < 2 ^ P.slotWidth := le_two_pow_clog2 _

end LbConfig

namespace LbController
open Clocked

variable {P : LbConfig}

/-- A message waiting in the controller: who sent it, and its descriptor. -/
structure Req (P : LbConfig) where
  src : BitVec P.coreIdWidth
  desc : BitVec 32
deriving DecidableEq

instance : Inhabited (Req P) := ⟨⟨0, 0⟩⟩

structure Regs (P : LbConfig) where
  pktDoneFifo : BasicFifo 3 (Req P)
  pktToCoreFifo : Fin P.coreCount → BasicFifo P.fifoWidth (Req P)
  pktToCoreArbiter : AxisArbMux P.coreCount (Req P × BitVec P.slotWidth)
  enqSlotV : Fin P.coreCount → Bool
  initSlotV : Fin P.coreCount → Bool
  inputSlot : BitVec P.slotWidth
  slotKeeper : Fin P.coreCount → SlotKeeper P.slotCount P.slotWidth
  loopbackPortSelectR : Nat
  lastSelected : Bool
  ctrlOutDestR : BitVec P.coreIdWidth
  ctrlOutDescR : BitVec 36
  ctrlOutValidR : Bool
deriving Inhabited

/-- One cycle of the surroundings: the cores' messages, the receiver of the
controller's own, the configuration registers and the policy's choice. -/
structure Cycle (P : LbConfig) where
  ctrlMAxisTready : Bool
  ctrlSAxisTdata : BitVec 36
  ctrlSAxisTvalid : Bool
  ctrlSAxisTuser : BitVec P.coreIdWidth
  enabledCores : Fin P.coreCount → Bool
  slotsFlush : Fin P.coreCount → Bool
  selectedCore : BitVec P.coreIdWidth
  descPop : Bool

/-! ## The circuit -/

section Message
variable (c : Cycle P)

def msgType : BitVec 4 := c.ctrlSAxisTdata.extractLsb' 32 4

def destCore : BitVec P.coreIdWidth := c.ctrlSAxisTdata.extractLsb' 24 P.coreIdWidth

/-- The slot of a type 0 message, or the number of slots of a type 3 one. -/
def slotField : BitVec P.slotWidth := c.ctrlSAxisTdata.extractLsb' 16 P.slotWidth

def message : Req P := ⟨c.ctrlSAxisTuser, c.ctrlSAxisTdata.setWidth 32⟩

/-- A message of the given type is on offer. -/
def offers (type : BitVec 4) : Bool := c.ctrlSAxisTvalid && decide (msgType c = type)

end Message

section Wires
variable (r : Regs P) (c : Cycle P)

def slotValids (m : Fin P.coreCount) : Bool := (r.slotKeeper m).slotOutValid

def nextSlot (m : Fin P.coreCount) : BitVec P.slotWidth := (r.slotKeeper m).slotOut

def slotCounts (m : Fin P.coreCount) : BitVec P.slotWidth := (r.slotKeeper m).slotCountOut

def pktToCoreValid (m : Fin P.coreCount) : Bool := (r.pktToCoreFifo m).doutValid

def pktToCoreReady (m : Fin P.coreCount) : Bool := (r.pktToCoreFifo m).dinReady

def arbToCoreReady (m : Fin P.coreCount) : Bool := r.pktToCoreArbiter.sAxisTready m

def slotBusys (m : Fin P.coreCount) : Bool := pktToCoreValid r m && arbToCoreReady r m

/-- The vector `pkt_to_core_ready` is used as a truth value: any bit will do. -/
def ctrlSAxisTready : Bool :=
  (decide (msgType c = 0) || decide (msgType c = 3)) ||
    (r.pktDoneFifo.dinReady && decide (msgType c = 1)) ||
    (decide (∃ m, pktToCoreReady r m = true) && decide (msgType c = 2))

def nextSlotPop (m : Fin P.coreCount) : Bool :=
  (c.descPop && decide (c.selectedCore.toNat = m)) || (slotBusys r m && c.enabledCores m)

def descData : BitVec (P.coreIdWidth + P.tagWidth) :=
  c.selectedCore ++ (padded 0 (nextSlot r) c.selectedCore.toNat).setWidth P.tagWidth

def selectedPktToCoreValid : Bool := r.pktToCoreArbiter.mAxisTvalid

def selectedPktToCore : Req P := r.pktToCoreArbiter.mAxis.1.1

def selectedPktToCoreDestSlot : BitVec P.slotWidth := r.pktToCoreArbiter.mAxis.1.2

def pktDoneValid : Bool := r.pktDoneFifo.doutValid

def ctrlOutSelect : Bool :=
  if selectedPktToCoreValid r && pktDoneValid r then !r.lastSelected
  else if selectedPktToCoreValid r then true
  else if pktDoneValid r then false
  else r.lastSelected

def ctrlOutValid : Bool := selectedPktToCoreValid r || pktDoneValid r

def ctrlOutReady : Bool := !r.ctrlOutValidR || c.ctrlMAxisTready

def selectedPktToCoreReady : Bool := ctrlOutSelect r && ctrlOutReady r c

def loopbackReady : Bool := !ctrlOutSelect r && ctrlOutReady r c

def loopbackPort : BitVec P.coreIdWidth :=
  if P.loopbackCount = 1 then BitVec.ofNat _ P.loopbackPort
  else BitVec.ofNat _ (P.loopbackPort + r.loopbackPortSelectR)

def destIdSlot : BitVec (P.coreIdWidth + P.tagWidth) :=
  (selectedPktToCore r).desc.extractLsb' 24 P.coreIdWidth ++
    (selectedPktToCoreDestSlot r).setWidth P.tagWidth

def pktToCoreWithPort : BitVec 32 :=
  (loopbackPort r).setWidth 8 ++ (selectedPktToCore r).desc.extractLsb' 16 8 ++
    (destIdSlot r).setWidth 16

def ctrlOutDest : BitVec P.coreIdWidth :=
  if ctrlOutSelect r then (selectedPktToCore r).src else r.pktDoneFifo.dout.src

def ctrlOutDesc : BitVec 36 :=
  if ctrlOutSelect r then (1 : BitVec 4) ++ pktToCoreWithPort r
  else (0 : BitVec 4) ++ r.pktDoneFifo.dout.desc

def pktDoneInputs : BasicFifo.Inputs (Req P) where
  rst := false
  clear := false
  dinValid := offers c 1
  din := message c
  doutReady := loopbackReady r c

def pktToCoreInputs (m : Fin P.coreCount) : BasicFifo.Inputs (Req P) where
  rst := false
  clear := false
  dinValid := offers c 2 && decide ((destCore c).toNat = m)
  din := message c
  doutReady := arbToCoreReady r m && slotValids r m && c.enabledCores m

def arbiterInputs : AxisArbMux.Inputs P.coreCount (Req P × BitVec P.slotWidth) where
  sAxisTvalid := fun m => pktToCoreValid r m && slotValids r m && c.enabledCores m
  sAxis := fun m => (((r.pktToCoreFifo m).dout, nextSlot r m), true)
  mAxisTready := selectedPktToCoreReady r c

def keeperInputs (m : Fin P.coreCount) : SlotKeeper.Inputs P.slotWidth where
  rst := c.slotsFlush m
  initSlots := r.inputSlot
  initValid := r.initSlotV m
  slotIn := r.inputSlot
  slotInValid := r.enqSlotV m
  slotOutPop := nextSlotPop r c m

/-- `loopback_port_select_r` counts the loopback ports; with two of them it is a bit
that flips, with one there is no such register. -/
def nextLoopbackPortSelect : Nat :=
  if P.loopbackCount ≠ 1 ∧ (selectedPktToCoreValid r && selectedPktToCoreReady r c) = true then
    if r.loopbackPortSelectR = P.loopbackCount - 1 then 0 else r.loopbackPortSelectR + 1
  else r.loopbackPortSelectR

/-- The registers after the clock edge, outside reset. -/
def next : Regs P where
  pktDoneFifo := r.pktDoneFifo.next (pktDoneInputs r c)
  pktToCoreFifo := fun m => (r.pktToCoreFifo m).next (pktToCoreInputs r c m)
  pktToCoreArbiter := r.pktToCoreArbiter.next (arbiterInputs r c)
  enqSlotV := fun m => offers c 0 && decide (c.ctrlSAxisTuser.toNat = m)
  initSlotV := fun m => offers c 3 && decide (c.ctrlSAxisTuser.toNat = m)
  inputSlot := slotField c
  slotKeeper := fun m => (r.slotKeeper m).next (keeperInputs r c m)
  loopbackPortSelectR := nextLoopbackPortSelect r c
  lastSelected :=
    if ctrlOutValid r && ctrlOutReady r c then ctrlOutSelect r else r.lastSelected
  ctrlOutDestR :=
    if ctrlOutValid r && ctrlOutReady r c then ctrlOutDest r else r.ctrlOutDestR
  ctrlOutDescR :=
    if ctrlOutValid r && ctrlOutReady r c then ctrlOutDesc r else r.ctrlOutDescR
  ctrlOutValidR :=
    if ctrlOutValid r && ctrlOutReady r c then true
    else if c.ctrlMAxisTready && !ctrlOutValid r then false
    else r.ctrlOutValidR

end Wires

/-- The state a reset leaves. -/
structure Fresh (r : Regs P) : Prop where
  pktDoneFifo : r.pktDoneFifo.Fresh
  pktToCoreFifo : ∀ m, (r.pktToCoreFifo m).Fresh
  pktToCoreArbiter : r.pktToCoreArbiter.Fresh
  enqSlotV : ∀ m, r.enqSlotV m = false
  initSlotV : ∀ m, r.initSlotV m = false
  slotKeeper : ∀ m, (r.slotKeeper m).occupied = 0 ∧ (r.slotKeeper m).slotErr = 0 ∧
    (r.slotKeeper m).lastValidCount = 1 ∧ (r.slotKeeper m).slotCountR = 0 ∧
    (r.slotKeeper m).validR = false ∧ (r.slotKeeper m).enqErrR = false
  loopbackPortSelectR : r.loopbackPortSelectR = 0
  lastSelected : r.lastSelected = false
  ctrlOutValidR : r.ctrlOutValidR = false

/-- The registers after a reset, with zeros in those that a reset leaves alone. -/
def Regs.reset : Regs P :=
  { (default : Regs P) with slotKeeper := fun _ => ⟨0, 0, 1, 0, false, false⟩ }

theorem Regs.reset_fresh : Fresh (Regs.reset : Regs P) where
  pktDoneFifo := .default
  pktToCoreFifo := fun _ => .default
  pktToCoreArbiter := ⟨fun _ => rfl, rfl, rfl, rfl, rfl⟩
  enqSlotV := fun _ => rfl
  initSlotV := fun _ => rfl
  slotKeeper := fun _ => ⟨rfl, rfl, rfl, rfl, rfl, rfl⟩
  loopbackPortSelectR := rfl
  lastSelected := rfl
  ctrlOutValidR := rfl

/-! ## Runs, and what they write down -/

/-- The controller with the messages accepted and read out so far, per FIFO. -/
structure Bench (P : LbConfig) where
  regs : Regs P
  accepted : Fin P.coreCount → List (Req P)
  readOut : Fin P.coreCount → List (Req P)
  doneAccepted : List (Req P)
  doneReadOut : List (Req P)

namespace Bench
variable (b : Bench P) (c : Cycle P)

def step : Bench P where
  regs := next b.regs c
  accepted := fun m => b.accepted m ++
    if offers c 2 && ctrlSAxisTready b.regs c && decide ((destCore c).toNat = m) then [message c]
    else []
  readOut := fun m => b.readOut m ++
    if (b.regs.pktToCoreFifo m).deque (pktToCoreInputs b.regs c m) then
      [(b.regs.pktToCoreFifo m).dout]
    else []
  doneAccepted := b.doneAccepted ++
    if offers c 1 && ctrlSAxisTready b.regs c then [message c] else []
  doneReadOut := b.doneReadOut ++
    if b.regs.pktDoneFifo.deque (pktDoneInputs b.regs c) then [b.regs.pktDoneFifo.dout] else []

/-- Out of reset, with nothing written down. -/
structure Start (b : Bench P) : Prop where
  regs : Fresh b.regs
  accepted : ∀ m, b.accepted m = []
  readOut : ∀ m, b.readOut m = []
  doneAccepted : b.doneAccepted = []
  doneReadOut : b.doneReadOut = []

/-- A packet for another core is taken only if that core exists and fewer messages
are waiting for it than its FIFO has places. -/
def RoomAhead : Prop :=
  offers c 2 = true → ctrlSAxisTready b.regs c = true →
    ∃ m : Fin P.coreCount, (destCore c).toNat = m ∧
      (b.accepted m).length < (b.readOut m).length + 2 ^ P.fifoWidth
deriving Decidable

end Bench

/-! ## Nothing is lost -/

/-- Either the FIFOs have just been reset, or each is ready exactly when it has
room. -/
def ReadyLaw (r : Regs P) : Prop :=
  (∀ m, (r.pktToCoreFifo m).Fresh) ∨
    ∀ m, (r.pktToCoreFifo m).nFull = true ↔ (r.pktToCoreFifo m).count < 2 ^ P.fifoWidth

structure Inv (b : Bench P) : Prop where
  doneFifo : b.regs.pktDoneFifo.Valid
  toCoreFifo : ∀ m, (b.regs.pktToCoreFifo m).Valid
  ready : ReadyLaw b.regs
  done : b.doneAccepted = b.doneReadOut ++ b.regs.pktDoneFifo.contents
  toCore : ∀ m, b.accepted m = b.readOut m ++ (b.regs.pktToCoreFifo m).contents

theorem Bench.Start.inv {b : Bench P} (h : b.Start) : Inv b where
  doneFifo := h.regs.pktDoneFifo.valid
  toCoreFifo := fun m => (h.regs.pktToCoreFifo m).valid
  ready := .inl h.regs.pktToCoreFifo
  done := by simp [h.doneAccepted, h.doneReadOut, h.regs.pktDoneFifo.contents_eq]
  toCore := fun m => by simp [h.accepted, h.readOut, (h.regs.pktToCoreFifo m).contents_eq]

section Steps
variable {b : Bench P} {c : Cycle P}

theorem readyLaw_step (h : Inv b) : ReadyLaw (b.step c).regs :=
  .inr fun m => BasicFifo.nFull_next (h.toCoreFifo m) rfl

/-- A type 1 message is taken exactly when its FIFO is ready. -/
theorem tready_of_done (h : offers c 1 = true) :
    ctrlSAxisTready b.regs c = b.regs.pktDoneFifo.dinReady := by
  have ht : msgType c = 1 := of_decide_eq_true (Bool.and_eq_true_iff.mp h).2
  simp [ctrlSAxisTready, ht]

/-- A type 2 message is taken exactly when some FIFO is ready. -/
theorem tready_of_toCore (h : offers c 2 = true) :
    ctrlSAxisTready b.regs c = decide (∃ m, pktToCoreReady b.regs m = true) := by
  have ht : msgType c = 2 := of_decide_eq_true (Bool.and_eq_true_iff.mp h).2
  simp [ctrlSAxisTready, ht]

/-- With room ahead, a message that is taken finds its own FIFO ready. -/
theorem own_ready_of_room (h : Inv b) (hroom : b.RoomAhead c) (hoff : offers c 2 = true)
    (hrdy : ctrlSAxisTready b.regs c = true) {m : Fin P.coreCount}
    (hm : (destCore c).toNat = m) : pktToCoreReady b.regs m = true := by
  obtain ⟨m', hm', hlt⟩ := hroom hoff hrdy
  obtain rfl : m' = m := Fin.ext (hm'.symm.trans hm)
  rw [h.toCore m', List.length_append, BasicFifo.length_contents] at hlt
  rw [tready_of_toCore hoff, decide_eq_true_eq] at hrdy
  obtain ⟨k, hk⟩ := hrdy
  rcases h.ready with hfresh | hlaw
  · -- right after a reset no FIFO is ready
    have hk' : (b.regs.pktToCoreFifo k).nFull = true := hk
    rw [(hfresh k).2.2.1] at hk'
    exact absurd hk' Bool.false_ne_true
  · exact (hlaw m').mpr (by omega)

/-- Acceptance of a type 1 message is its entry into the FIFO. -/
theorem accepts_done : (offers c 1 && ctrlSAxisTready b.regs c) =
    b.regs.pktDoneFifo.enque (pktDoneInputs b.regs c) := by
  by_cases ho : offers c 1 = true
  · rw [tready_of_done ho]
    rfl
  · simp only [BasicFifo.enque, pktDoneInputs, ho, Bool.false_and]

/-- With room ahead, acceptance of a type 2 message is its entry into the FIFO of its
own destination. -/
theorem accepts_toCore (h : Inv b) (hroom : b.RoomAhead c) (m : Fin P.coreCount) :
    (offers c 2 && ctrlSAxisTready b.regs c && decide ((destCore c).toNat = m)) =
      (b.regs.pktToCoreFifo m).enque (pktToCoreInputs b.regs c m) := by
  simp only [BasicFifo.enque, pktToCoreInputs]
  by_cases hm : (destCore c).toNat = m
  · by_cases ho : offers c 2 = true
    · have hown : ctrlSAxisTready b.regs c = (b.regs.pktToCoreFifo m).dinReady := by
        cases hr : ctrlSAxisTready b.regs c with
        | true => exact (own_ready_of_room h hroom ho hr hm).symm
        | false =>
          rw [tready_of_toCore ho, decide_eq_false_iff_not, not_exists] at hr
          exact (Bool.not_eq_true _ ▸ hr m).symm
      simp only [hown, hm, decide_true, Bool.and_true]
    · simp only [ho, Bool.false_and]
  · simp [hm]

theorem done_step (h : Inv b) : (b.step c).doneAccepted =
    (b.step c).doneReadOut ++ (b.step c).regs.pktDoneFifo.contents := by
  have hcons := BasicFifo.conservation (i := pktDoneInputs b.regs c) h.doneFifo rfl
  simp only [Bench.step, accepts_done]
  rw [h.done, List.append_assoc, List.append_assoc]
  exact congrArg (b.doneReadOut ++ ·) hcons

theorem toCore_step (h : Inv b) (hroom : b.RoomAhead c) (m : Fin P.coreCount) :
    (b.step c).accepted m =
      (b.step c).readOut m ++ ((b.step c).regs.pktToCoreFifo m).contents := by
  have hcons := BasicFifo.conservation (i := pktToCoreInputs b.regs c m) (h.toCoreFifo m) rfl
  simp only [Bench.step, accepts_toCore h hroom]
  rw [h.toCore m, List.append_assoc, List.append_assoc]
  exact congrArg (b.readOut m ++ ·) hcons

theorem inv_step (h : Inv b) (hroom : b.RoomAhead c) : Inv (b.step c) where
  doneFifo := h.doneFifo.next (by decide) (pktDoneInputs b.regs c)
  toCoreFifo := fun m => (h.toCoreFifo m).next P.fifoWidth_pos (pktToCoreInputs b.regs c m)
  ready := readyLaw_step h
  done := done_step h
  toCore := toCore_step h hroom

end Steps

/-- **The controller loses no message as long as the senders leave it room.**  In
every run from reset in which a packet for another core is taken only while fewer
messages wait for that core than its FIFO has places, every message taken for a core
is in its FIFO or has been read out of it, in order, and so is every message about a
packet that leaves; and no message is taken while its own FIFO is not ready. -/
theorem nothing_lost_of_room {b₀ : Bench P} (hstart : b₀.Start) (cycles : List (Cycle P))
    (hm : Meets Bench.step Bench.RoomAhead b₀ cycles) :
    let b := run Bench.step b₀ cycles
    (∀ m, b.accepted m = b.readOut m ++ (b.regs.pktToCoreFifo m).contents) ∧
      b.doneAccepted = b.doneReadOut ++ b.regs.pktDoneFifo.contents ∧
      ∀ c, b.RoomAhead c → offers c 2 = true → ctrlSAxisTready b.regs c = true →
        ∃ m : Fin P.coreCount, (destCore c).toNat = m ∧ pktToCoreReady b.regs m = true := by
  intro b
  have h : Inv b := run_invariant (fun _ _ h hroom => inv_step h hroom) hstart.inv hm
  refine ⟨h.toCore, h.done, ?_⟩
  intro c hroom hoff hrdy
  obtain ⟨m, hdest, -⟩ := hroom hoff hrdy
  exact ⟨m, hdest, own_ready_of_room h hroom hoff hrdy hdest⟩

/-! ## A full destination -/

/-- Two cores of two slots each. -/
def sampleConfig : LbConfig := ⟨2, 2, 3, 1, Nat.one_lt_two, by decide⟩

def core0 : Fin sampleConfig.coreCount := ⟨0, by decide⟩

def sampleBench : Bench sampleConfig := ⟨.reset, fun _ => [], fun _ => [], [], []⟩

/-- Core 1 has a packet in the given slot for core 0. -/
def requesting (slot : BitVec 8) : Cycle sampleConfig where
  ctrlMAxisTready := true
  ctrlSAxisTdata := (2 : BitVec 4) ++ (0 : BitVec 8) ++ slot ++ (0 : BitVec 16)
  ctrlSAxisTvalid := true
  ctrlSAxisTuser := 1
  enabledCores := fun _ => true
  slotsFlush := fun _ => false
  selectedCore := 0
  descPop := false

/-- Nothing is offered. -/
def idle : Cycle sampleConfig := { requesting 0 with ctrlSAxisTvalid := false }

theorem sampleBench_start : sampleBench.Start :=
  ⟨Regs.reset_fresh, fun _ => rfl, fun _ => rfl, rfl, rfl⟩

theorem nothing_lost_of_room_twoRequests :
    let b := run Bench.step sampleBench [idle, requesting 1, requesting 2]
    b.accepted core0 = [⟨1, 0x010000⟩, ⟨1, 0x020000⟩] ∧
      b.accepted core0 = b.readOut core0 ++ (b.regs.pktToCoreFifo core0).contents :=
  ⟨by decide +kernel,
    (nothing_lost_of_room sampleBench_start [idle, requesting 1, requesting 2]
      (by decide +kernel)).1 core0⟩

/-- **A message for a core whose FIFO is full is taken and lost**, because the FIFO of
the other core has room. -/
theorem full_destination_loses :
    let b := run Bench.step sampleBench [idle, requesting 1, requesting 2]
    let b' := b.step (requesting 3)
    ctrlSAxisTready b.regs (requesting 3) = true ∧ pktToCoreReady b.regs core0 = false ∧
      b'.accepted core0 = [⟨1, 0x010000⟩, ⟨1, 0x020000⟩, ⟨1, 0x030000⟩] ∧
      b'.readOut core0 ++ (b'.regs.pktToCoreFifo core0).contents =
        [⟨1, 0x010000⟩, ⟨1, 0x020000⟩] := by
  decide +kernel

end LbController
end Rosebud
