import Rosebud.LbController

/-! # The front of the hash policies

`lb_hash_blocking` and `lb_hash_dropping` share the path of a hash: it waits in the
`rx_hash_fifo` of its interface, the port selector picks an interface, and in the cycle
after that the policy decides what becomes of the head hash.  If it is taken, it goes
with a descriptor to the `rx_hash_n_desc_fifo` of the interface.  What the policies do
not share is the decision, which here is a parameter (`take`), and the entry written.

The selection is a cycle old when it is acted on.  `Selected` says that it is still
right then: the interface has a head hash, the core selected is that of this hash, and
there is room for the entry.
-/
namespace Rosebud

/-- The parameters of the hash policies. -/
structure HashConfig extends LbConfig where
  ifCount : Nat
  hashSelOffset : Nat
  rxLinesWidth : Nat
  dataFifoDepth : Nat
  one_lt_hashFifoDepth : 1 < dataFifoDepth / 64

namespace HashConfig
variable (P : HashConfig)

def hashFifoDepth : Nat := P.dataFifoDepth / 64

/-- `ADDR_WIDTH` of the FIFOs of depth `HASH_FIFO_DEPTH`. -/
def hashFifoWidth : Nat := clog2 P.hashFifoDepth

theorem hashFifoWidth_pos : 0 < P.hashFifoWidth := clog2_pos P.one_lt_hashFifoDepth

end HashConfig

namespace HashSelect
open Clocked

variable {P : HashConfig} {E : Type}

abbrev IdTag (P : HashConfig) : Type := BitVec (P.coreIdWidth + P.tagWidth)

/-- What `rx_hash` computes for a packet. -/
structure RxHash where
  type : BitVec 4
  hash : BitVec 32
deriving DecidableEq, Inhabited

/-- The registers the policies share; `E` is an entry of `rx_hash_n_desc_fifo`. -/
structure Regs (P : HashConfig) (E : Type) where
  rxHashFifo : Fin P.ifCount → BasicFifo P.hashFifoWidth RxHash
  rxHashNDescFifo : Fin P.ifCount → BasicFifo P.hashFifoWidth E
  incomeCores : Fin P.coreCount → Bool
  enabledCores : Fin P.coreCount → Bool
  portSelector : SimpleArbiter P.ifCount
  selectedPortR : Fin P.ifCount → Bool
  selectedPortEncR : Nat
  selectedPortVR : Bool
  selectedCore : BitVec P.coreIdWidth
deriving Inhabited

/-- One cycle of the host, the hash units, the header adders and the controller. -/
structure Cycle (P : HashConfig) where
  hostCmd : BitVec 29
  hostCmdForInts : Bool
  hostCmdWrData : BitVec 32
  hostCmdWrEn : Bool
  rxHashValid : Fin P.ifCount → Bool
  rxHash : Fin P.ifCount → RxHash
  hashNDestOutReady : Fin P.ifCount → Bool
  sAxisLineCount : Fin P.ifCount → BitVec P.rxLinesWidth
  slotValids : Fin P.coreCount → Bool
  slotBusys : Fin P.coreCount → Bool
  descData : IdTag P

/-! ## The circuit -/

section Wires
variable (r : Regs P E)

def rxHashF (p : Fin P.ifCount) : RxHash := (r.rxHashFifo p).dout

def rxHashValidF (p : Fin P.ifCount) : Bool := (r.rxHashFifo p).doutValid

def hashNDestInReady (p : Fin P.ifCount) : Bool := (r.rxHashNDescFifo p).dinReady

/-- `hash[HASH_SEL_OFFSET +: CORE_ID_WIDTH]`. -/
def coreOf (hash : BitVec 32) : BitVec P.coreIdWidth := hash.extractLsb' P.hashSelOffset _

def maskedHash (p : Fin P.ifCount) : BitVec P.coreIdWidth := coreOf (rxHashF r p).hash

def descReq (p : Fin P.ifCount) : Bool :=
  rxHashValidF r p && !r.selectedPortR p && hashNDestInReady r p

def selectedPort : Fin P.ifCount → Bool := r.portSelector.grantHigh (descReq r)

def selectedPortEnc : Nat := r.portSelector.grantEncodedHigh (descReq r)

def selectedPortV : Bool := r.portSelector.grantValidHigh (descReq r)

/-- The head hash of the selected interface. -/
def selectedHash : BitVec 32 := padded 0 (fun p => (rxHashF r p).hash) r.selectedPortEncR

/-- The bit of the selected core in a vector with one bit for each core.  The bit
beyond the last core is unknown; `pad` is the value that meets no condition. -/
def atCore (pad : Bool) (x : Fin P.coreCount → Bool) : Bool := padded pad x r.selectedCore.toNat

end Wires

section Module
variable (r : Regs P E) (c : Cycle P) (take : Bool) (entry : E)

def hostCmdReg : BitVec 4 := c.hostCmd.setWidth 4

/-- The host writes the register with the given number, of the cores or of the
interfaces. -/
def hostWrites (ints : Bool) (reg : BitVec 4) : Bool :=
  c.hostCmdWrEn && decide (c.hostCmdForInts = ints) && decide (hostCmdReg c = reg)

/-- `rx_hash_ready_f` and `hash_n_dest_in_v`, which are driven together. -/
def taken (p : Fin P.ifCount) : Bool := take && r.selectedPortR p

def rxHashFifoIn (p : Fin P.ifCount) : BasicFifo.Inputs RxHash :=
  ⟨false, false, c.rxHashValid p, c.rxHash p, taken r take p⟩

def rxHashNDescFifoIn (p : Fin P.ifCount) : BasicFifo.Inputs E :=
  ⟨false, false, taken r take p, entry, c.hashNDestOutReady p⟩

/-- The shared registers after the clock edge, outside reset. -/
def advance : Regs P E where
  rxHashFifo := fun p => (r.rxHashFifo p).next (rxHashFifoIn r c take p)
  rxHashNDescFifo := fun p => (r.rxHashNDescFifo p).next (rxHashNDescFifoIn r c take entry p)
  incomeCores := fun m =>
    if hostWrites c false 0 then r.incomeCores m && c.hostCmdWrData.getLsbD m
    else if hostWrites c false 1 then c.hostCmdWrData.getLsbD m && r.enabledCores m
    else r.incomeCores m
  enabledCores := fun m =>
    if hostWrites c false 0 then c.hostCmdWrData.getLsbD m else r.enabledCores m
  portSelector := r.portSelector.nextHigh (descReq r) true
  selectedPortR := fun p => if selectedPortV r then selectedPort r p else false
  selectedPortEncR := selectedPortEnc r
  selectedPortVR := selectedPortV r
  selectedCore := padded 0 (maskedHash r) (selectedPortEnc r)

/-- The head hash of an interface leaves its FIFO. -/
def consumes (p : Fin P.ifCount) : Bool := (r.rxHashFifo p).deque (rxHashFifoIn r c take p)

/-- An entry of an interface is stored. -/
def pushes (p : Fin P.ifCount) : Bool :=
  (r.rxHashNDescFifo p).enque (rxHashNDescFifoIn r c take entry p)

/-- The registers after a reset; those without one hold anything. -/
structure Start : Prop where
  rxHashFifo : ∀ p, (r.rxHashFifo p).Fresh
  rxHashNDescFifo : ∀ p, (r.rxHashNDescFifo p).Fresh
  incomeCores : ∀ m, r.incomeCores m = false
  enabledCores : ∀ m, r.enabledCores m = false
  mask : ∀ p, r.portSelector.mask p = false
  selectedPortR : ∀ p, r.selectedPortR p = false
  selectedPortEncR : r.selectedPortEncR = 0
  selectedPortVR : r.selectedPortVR = false
  selectedCore : r.selectedCore = 0

end Module

protected theorem Start.default [Inhabited E] : Start (default : Regs P E) :=
  ⟨fun _ => .default, fun _ => .default, fun _ => rfl, fun _ => rfl, fun _ => rfl, fun _ => rfl,
    rfl, rfl, rfl⟩

/-! ## The selection is still right when it is acted on -/

/-- The interface selected, and what holds of it. -/
structure Chosen (r : Regs P E) (p : Fin P.ifCount) : Prop where
  enc : p.val = r.selectedPortEncR
  hashValid : rxHashValidF r p = true
  room : hashNDestInReady r p = true
  core : r.selectedCore = maskedHash r p

structure Selected (r : Regs P E) : Prop where
  hashFifo : ∀ p, (r.rxHashFifo p).Valid
  descFifo : ∀ p, (r.rxHashNDescFifo p).Valid
  oneHot : ∀ p, r.selectedPortR p = (r.selectedPortVR && decide (p.val = r.selectedPortEncR))
  chosen : r.selectedPortVR = true → ∃ p, Chosen r p

theorem Start.selected {r : Regs P E} (h : Start r) : Selected r where
  hashFifo := fun p => (h.rxHashFifo p).valid
  descFifo := fun p => (h.rxHashNDescFifo p).valid
  oneHot := fun p => by rw [h.selectedPortR, h.selectedPortVR, Bool.false_and]
  chosen := fun hv => by simp [h.selectedPortVR] at hv

section Step
variable {r : Regs P E} {c : Cycle P} {take : Bool} {entry : E} {p q : Fin P.ifCount}

variable (take) in
theorem taken_of_not_selected (h : r.selectedPortR p = false) : taken r take p = false := by
  rw [taken, h, Bool.and_false]

/-- The interface whose hash is taken is the one selected. -/
theorem Selected.chosen_of_taken (h : Selected r) (ht : taken r take p = true) : Chosen r p := by
  have hp := (Bool.and_eq_true_iff.mp ht).2
  rw [h.oneHot] at hp
  obtain ⟨hv, hp⟩ := Bool.and_eq_true_iff.mp hp
  obtain ⟨q, hq⟩ := h.chosen hv
  obtain rfl : p = q := Fin.ext ((of_decide_eq_true hp).trans hq.enc.symm)
  exact hq

/-- A hash is consumed exactly when its interface is selected and the policy takes it,
and an entry is stored in the same cycles. -/
theorem Selected.consumes_eq (h : Selected r) (p : Fin P.ifCount) :
    consumes r c take p = taken r take p := by
  unfold consumes BasicFifo.deque
  cases ht : taken r take p with
  | false => simp [rxHashFifoIn, ht]
  | true =>
    rw [show (r.rxHashFifo p).doutValid = true from (h.chosen_of_taken ht).hashValid]
    exact ht

theorem Selected.pushes_eq (h : Selected r) (p : Fin P.ifCount) :
    pushes r c take entry p = taken r take p := by
  unfold pushes BasicFifo.enque
  cases ht : taken r take p with
  | false => simp [rxHashNDescFifoIn, ht]
  | true =>
    rw [show (r.rxHashNDescFifo p).dinReady = true from (h.chosen_of_taken ht).room, Bool.and_true]
    exact ht

/-- At most one hash is taken in a cycle. -/
theorem Selected.taken_unique (h : Selected r) (hp : taken r take p = true)
    (hq : taken r take q = true) : p = q :=
  Fin.ext ((h.chosen_of_taken hp).enc.trans (h.chosen_of_taken hq).enc.symm)

/-- What is selected is taken if the policy takes it. -/
theorem Selected.taken_chosen (h : Selected r) (hv : r.selectedPortVR = true)
    (hp : Chosen r p) : taken r true p = true := by
  rw [taken, h.oneHot, hv]
  exact decide_eq_true hp.enc

theorem Chosen.selectedHash_eq (h : Chosen r p) : selectedHash r = (rxHashF r p).hash := by
  rw [selectedHash, ← h.enc, padded_val]

variable (c entry) in
/-- The head hash of an interface that is not taken stays where it is. -/
theorem Selected.head_advance (h : Selected r) (hv : rxHashValidF r p = true)
    (ht : taken r take p = false) :
    rxHashValidF (advance r c take entry) p = true ∧
      rxHashF (advance r c take entry) p = rxHashF r p := by
  have hd : consumes r c take p = false := by rw [h.consumes_eq, ht]
  exact BasicFifo.dout_next P.hashFifoWidth_pos (h.hashFifo p) rfl hv hd

/-- **What is selected stays right for a cycle**: it was not selected before, so
nothing touches its head hash or its room. -/
theorem Selected.advance (h : Selected r) : Selected (advance r c take entry) where
  hashFifo := fun p => (h.hashFifo p).next P.hashFifoWidth_pos (rxHashFifoIn r c take p)
  descFifo := fun p =>
    (h.descFifo p).next P.hashFifoWidth_pos (rxHashNDescFifoIn r c take entry p)
  oneHot := fun p => by
    change (if selectedPortV r then selectedPort r p else false) =
      (selectedPortV r && decide (p.val = selectedPortEnc r))
    cases selectedPortV r <;> rfl
  chosen := fun hv => by
    obtain ⟨hlt, hreq⟩ := SimpleArbiter.request_of_grantValidHigh hv
    obtain ⟨hreq, hroom⟩ := Bool.and_eq_true_iff.mp hreq
    obtain ⟨hhash, hnew⟩ := Bool.and_eq_true_iff.mp hreq
    have ht := taken_of_not_selected take (Bool.not_eq_true' _ ▸ hnew)
    obtain ⟨hvalid, hdout⟩ := h.head_advance c entry hhash ht
    refine ⟨⟨_, hlt⟩, rfl, hvalid, ?_, ?_⟩
    · have he : pushes r c take entry ⟨_, hlt⟩ = false := by rw [h.pushes_eq, ht]
      exact BasicFifo.dinReady_next (h.descFifo _) rfl hroom he
    · change padded 0 (maskedHash r) (selectedPortEnc r) = _
      rw [show selectedPortEnc r = r.portSelector.grantEncodedHigh (descReq r) from rfl,
        padded_of_lt hlt, maskedHash, maskedHash, hdout]

end Step

/-! ## A small instance -/

/-- Two interfaces and two cores of two slots. -/
def twoPorts : HashConfig where
  coreCount := 2
  slotCount := 2
  loopbackPort := 0
  loopbackCount := 1
  one_lt_slotCount := Nat.one_lt_two
  slotCount_lt := LbController.sampleConfig.slotCount_lt
  ifCount := 2
  hashSelOffset := 0
  rxLinesWidth := 5
  dataFifoDepth := 128
  one_lt_hashFifoDepth := by decide

/-- The core the hashes of the instance name. -/
def twoPortsCore : Fin twoPorts.coreCount := ⟨1, by decide⟩

/-- A cycle in which the host writes `data` to register `reg` of the cores if `write` is
set, hashes for core 1 arrive if `hashes` is, and core 1 has a slot if `slot` is. -/
def twoPortsCycle (write : Bool) (reg data : Nat) (hashes slot : Bool) : Cycle twoPorts where
  hostCmd := BitVec.ofNat 29 reg
  hostCmdForInts := false
  hostCmdWrData := BitVec.ofNat 32 data
  hostCmdWrEn := write
  rxHashValid := fun _ => hashes
  rxHash := fun p => ⟨0, BitVec.ofNat 32 (1 + 2 * p.val)⟩
  hashNDestOutReady := fun _ => false
  sAxisLineCount := fun _ => BitVec.allOnes 5
  slotValids := fun m => slot && decide (m.val = 1)
  slotBusys := fun _ => false
  descData := 5

end HashSelect
end Rosebud
