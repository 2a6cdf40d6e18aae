import Rosebud.LbController

/-! # `lb_rr_lu`

The default load balancing policy.  Packets of every interface go to the core with
the most free slots: within a cluster of cores by a maximum finder over the slot
counts, between clusters in turn.  A port that needs a slot asks the port selector
for its turn, and the cycle it has its turn in pops a descriptor of the selected
core.

The cores a descriptor may come from are the income enabled ones whose slot the
controller is not handing to another core in the same cycle.  `selectedCore_largest` is
what the rest of the development needs of the choice: it is such a core, its count is not
zero, and no such core of its cluster has a larger one.

Packet data passes through unchanged and is left out, and so are the read back
registers and the drop limit, which drives nothing: the dropper's `drop` input is
tied to zero, so that it passes its handshakes on.
-/
namespace Rosebud

/-- The identifier that is put together of a cluster and a place in it, which has
`$clog2(CLUSTER_CORES)` bits. -/
def concatCore (clusterCores k j : Nat) : Nat := k * 2 ^ clog2 clusterCores + j

/-- Behind the first cluster it is the number of the core only if clusters have a power of two
of cores. -/
theorem concatCore_eq_iff {clusterCores k : Nat} (hk : 0 < k) (j : Nat) :
    concatCore clusterCores k j = k * clusterCores + j ↔ 2 ^ clog2 clusterCores = clusterCores := by
  rw [concatCore, Nat.add_right_cancel_iff, Nat.mul_right_inj hk.ne']

-- of six cores in two clusters, core 3 is the first of the second and would be named 4
example : concatCore 3 1 0 = 4 := by decide

/-- The parameters of the policy.  There are at least two clusters, of a power of two
of cores each. -/
structure LuConfig extends LbConfig where
  ifCount : Nat
  clusterCount : Nat
  clusterCoreWidth : Nat
  one_lt_clusterCount : 1 < clusterCount
  clusterCoreWidth_pos : 0 < clusterCoreWidth
  coreCount_eq : coreCount = clusterCount * 2 ^ clusterCoreWidth

namespace LuConfig
variable (P : LuConfig)

def clusterCores : Nat := 2 ^ P.clusterCoreWidth

theorem concatCore_clusterCores (k j : Nat) :
    concatCore P.clusterCores k j = k * P.clusterCores + j := by
  rcases Nat.eq_zero_or_pos k with rfl | hk
  · simp [concatCore]
  · exact (concatCore_eq_iff hk j).mpr (two_pow_clog2_two_pow P.clusterCoreWidth)

/-- The core at a place of a cluster. -/
def coreAt (k : Fin P.clusterCount) (j : Fin P.clusterCores) : Fin P.coreCount :=
  ⟨k.val * P.clusterCores + j.val, by
    have hk : (k.val + 1) * P.clusterCores ≤ P.clusterCount * P.clusterCores :=
      Nat.mul_le_mul_right _ k.isLt
    have hj := j.isLt
    have hcount : P.coreCount = P.clusterCount * P.clusterCores := P.coreCount_eq
    rw [Nat.succ_mul] at hk
    omega⟩

/-- Two clusters of two cores, with two slots each. -/
def small (ifCount : Nat) : LuConfig where
  coreCount := 4
  slotCount := 2
  loopbackPort := 3
  loopbackCount := 1
  one_lt_slotCount := Nat.one_lt_two
  slotCount_lt := LbController.sampleConfig.slotCount_lt
  ifCount := ifCount
  clusterCount := 2
  clusterCoreWidth := 1
  one_lt_clusterCount := Nat.one_lt_two
  clusterCoreWidth_pos := Nat.one_pos
  coreCount_eq := rfl

end LuConfig

namespace LbRrLu
variable {P : LuConfig}

inductive PortState where
  | stall -- don't accept until getting a desc
  | first -- ready to get a new packet
  | wait  -- accept while waiting for a new desc
  | mid   -- desc ready, wait for the end of the packet
deriving DecidableEq, Inhabited

abbrev IdTag (P : LuConfig) : Type := BitVec (P.coreIdWidth + P.tagWidth)

structure Regs (P : LuConfig) where
  incomeCores : Fin P.coreCount → Bool
  enabledCores : Fin P.coreCount → Bool
  slotsFlush : Fin P.coreCount → Bool
  releaseDesc : Fin P.ifCount → Bool
  portState : Fin P.ifCount → PortState
  destR : Fin P.ifCount → IdTag P
  destRr : Fin P.ifCount → IdTag P
  maxSlotArbiter : SimpleArbiter P.clusterCount
  portSelector : Arbiter P.ifCount
deriving Inhabited

/-- One cycle of the host and the interfaces. -/
structure Cycle (P : LuConfig) where
  hostCmd : BitVec 29
  hostCmdForInts : Bool
  hostCmdWrData : BitVec 32
  hostCmdWrEn : Bool
  sAxisTvalid : Fin P.ifCount → Bool
  sAxisTlast : Fin P.ifCount → Bool
  mAxisTready : Fin P.ifCount → Bool

/-- What the controller tells the policy. -/
structure Slots (P : LuConfig) where
  slotCounts : Fin P.coreCount → BitVec P.slotWidth
  slotBusys : Fin P.coreCount → Bool
  descData : IdTag P

/-! ## The policy -/

section Policy
variable (r : Regs P) (slotCounts : Fin P.coreCount → BitVec P.slotWidth)
  (slotBusys : Fin P.coreCount → Bool)

def masks (m : Fin P.coreCount) : Bool := r.incomeCores m && !slotBusys m

def clusterMaxValid (k : Fin P.clusterCount) : Bool :=
  MaxFinderTree.maxValid (fun j => slotCounts (P.coreAt k j))
    (fun j => masks r slotBusys (P.coreAt k j))

def selectedClusterCore (k : Fin P.clusterCount) : Nat :=
  MaxFinderTree.maxPtr (fun j => slotCounts (P.coreAt k j))
    (fun j => masks r slotBusys (P.coreAt k j))

def maxValid : Bool := r.maxSlotArbiter.grantValid (clusterMaxValid r slotCounts slotBusys)

def selectedCluster : Nat := r.maxSlotArbiter.grantEncoded (clusterMaxValid r slotCounts slotBusys)

/-- The concatenation of the cluster and the place in it. -/
def selectedCore : BitVec P.coreIdWidth :=
  BitVec.ofNat _ (concatCore P.clusterCores (selectedCluster r slotCounts slotBusys)
    (padded 0 (selectedClusterCore r slotCounts slotBusys)
      (selectedCluster r slotCounts slotBusys)))

def selectedPortV : Bool := r.portSelector.grantValidReg

def descPop : Bool := selectedPortV r && maxValid r slotCounts slotBusys

end Policy

/-! ## The ports -/

section Ports
variable (r : Regs P) (c : Cycle P) (slots : Slots P)

def portDescAvail (n : Fin P.ifCount) : Bool :=
  descPop r slots.slotCounts slots.slotBusys && r.portSelector.grantReg n

def portNotStall (n : Fin P.ifCount) : Bool := decide (r.portState n ≠ .stall)

def sAxisTready (n : Fin P.ifCount) : Bool := c.mAxisTready n && portNotStall r n

def portValid (n : Fin P.ifCount) : Bool := c.sAxisTvalid n && sAxisTready r c n

def sendingLastWord (n : Fin P.ifCount) : Bool := portValid r c n && c.sAxisTlast n

def nextPortState (n : Fin P.ifCount) : PortState :=
  match r.portState n with
  | .stall => if portDescAvail r slots n then .first else .stall
  | .first =>
    if sendingLastWord r c n then .stall
    else if portValid r c n then .wait
    else if r.releaseDesc n then .stall
    else .first
  | .wait =>
    if portDescAvail r slots n && sendingLastWord r c n then .first
    else if portDescAvail r slots n then .mid
    else if sendingLastWord r c n then .stall
    else .wait
  | .mid =>
    if sendingLastWord r c n then (if r.releaseDesc n then .stall else .first)
    else if r.releaseDesc n then .wait
    else .mid

def descReq (n : Fin P.ifCount) : Bool :=
  !r.portSelector.grantReg n &&
    (decide (r.portState n = .stall) || decide (r.portState n = .wait) ||
      (decide (r.portState n = .first) && portValid r c n))

def mAxisTvalid (n : Fin P.ifCount) : Bool := c.sAxisTvalid n && portNotStall r n

/-- A word leaves on `m_axis` when one is taken on `s_axis`. -/
theorem mAxis_transfer (n : Fin P.ifCount) :
    (mAxisTvalid r c n && c.mAxisTready n) = portValid r c n := by
  rw [mAxisTvalid, portValid, sAxisTready, Bool.and_assoc, Bool.and_comm (portNotStall r n)]

def mAxisTdest (n : Fin P.ifCount) : IdTag P :=
  if r.portState n = .first then r.destR n else r.destRr n

end Ports

/-! ## Configuration registers, and a cycle of all -/

section Module
variable (r : Regs P) (c : Cycle P) (slots : Slots P)

def hostCmdReg : BitVec 4 := c.hostCmd.setWidth 4

/-- The host writes the register with the given number, of the cores or of the
interfaces. -/
def hostWrites (ints : Bool) (reg : BitVec 4) : Bool :=
  c.hostCmdWrEn && decide (c.hostCmdForInts = ints) && decide (hostCmdReg c = reg)

/-- No write, or one to a register without a case of its own: the one cycle signals
fall. -/
def hostIdle : Bool :=
  !(hostWrites c false 0 || hostWrites c false 1 || hostWrites c false 2 ||
    hostWrites c true 2 || hostWrites c true 3)

/-- The registers after the clock edge, outside reset. -/
def next : Regs P where
  incomeCores := fun m =>
    if hostWrites c false 0 then r.incomeCores m && c.hostCmdWrData.getLsbD m
    else if hostWrites c false 1 then c.hostCmdWrData.getLsbD m && r.enabledCores m
    else r.incomeCores m
  enabledCores := fun m =>
    if hostWrites c false 0 then c.hostCmdWrData.getLsbD m else r.enabledCores m
  slotsFlush := fun m =>
    if hostWrites c false 2 then c.hostCmdWrData.getLsbD m
    else if hostIdle c then false
    else r.slotsFlush m
  releaseDesc := fun n =>
    if hostWrites c true 2 then c.hostCmdWrData.getLsbD n
    else if hostIdle c then false
    else r.releaseDesc n
  portState := nextPortState r c slots
  destR := fun n =>
    if descPop r slots.slotCounts slots.slotBusys && decide (r.portSelector.grantEncodedReg = n)
    then slots.descData
    else r.destR n
  destRr := fun n =>
    if r.portState n = .first ∧ portValid r c n = true then r.destR n else r.destRr n
  maxSlotArbiter :=
    r.maxSlotArbiter.next (clusterMaxValid r slots.slotCounts slots.slotBusys) (selectedPortV r)
  portSelector := r.portSelector.next false (descReq r c) (fun _ => false)

end Module

/-- The state a reset leaves. -/
structure Fresh (r : Regs P) : Prop where
  incomeCores : ∀ m, r.incomeCores m = false
  enabledCores : ∀ m, r.enabledCores m = false
  slotsFlush : ∀ m, r.slotsFlush m = false
  releaseDesc : ∀ n, r.releaseDesc n = false
  portState : ∀ n, r.portState n = .stall
  maxSlotArbiter : ∀ k, r.maxSlotArbiter.mask k = false
  portSelector : r.portSelector = Arbiter.reset

protected theorem Fresh.default : Fresh (default : Regs P) :=
  ⟨fun _ => rfl, fun _ => rfl, fun _ => rfl, fun _ => rfl, fun _ => rfl, fun _ => rfl, rfl⟩

/-! ## What is selected -/

section Selected
variable {r : Regs P} {slotCounts : Fin P.coreCount → BitVec P.slotWidth}
  {slotBusys : Fin P.coreCount → Bool}

/-- **The selected core is one with the most slots of its cluster.**  It is income enabled,
not busy, and has a count other than zero. -/
theorem selectedCore_largest (h : maxValid r slotCounts slotBusys = true) :
    ∃ (hk : selectedCluster r slotCounts slotBusys < P.clusterCount) (j : Fin P.clusterCores),
      (selectedCore r slotCounts slotBusys).toNat = P.coreAt ⟨_, hk⟩ j ∧
        masks r slotBusys (P.coreAt ⟨_, hk⟩ j) = true ∧ slotCounts (P.coreAt ⟨_, hk⟩ j) ≠ 0 ∧
        ∀ j', masks r slotBusys (P.coreAt ⟨_, hk⟩ j') = true →
          slotCounts (P.coreAt ⟨_, hk⟩ j') ≤ slotCounts (P.coreAt ⟨_, hk⟩ j) := by
  obtain ⟨hk, hcluster⟩ : ∃ hk : selectedCluster r slotCounts slotBusys < P.clusterCount,
      clusterMaxValid r slotCounts slotBusys ⟨_, hk⟩ = true :=
    SimpleArbiter.request_of_grantValid h
  obtain ⟨hj, hmask, hcount⟩ :
      ∃ hj : selectedClusterCore r slotCounts slotBusys ⟨_, hk⟩ < P.clusterCores,
        masks r slotBusys (P.coreAt ⟨_, hk⟩ ⟨_, hj⟩) = true ∧
          slotCounts (P.coreAt ⟨_, hk⟩ ⟨_, hj⟩) ≠ 0 :=
    MaxFinderTree.masked_maxPtr hcluster
  refine ⟨hk, ⟨_, hj⟩, ?_, hmask, hcount, fun j' hj' => MaxFinderTree.le_value_maxPtr hj hj'⟩
  have hlt := (P.coreAt ⟨_, hk⟩ ⟨_, hj⟩).isLt
  have hid : P.coreCount ≤ 2 ^ P.coreIdWidth := le_two_pow_clog2 P.coreCount
  rw [selectedCore, padded_of_lt hk, P.concatCore_clusterCores, BitVec.toNat_ofNat]
  exact Nat.mod_eq_of_lt (Nat.lt_of_lt_of_le hlt hid)

theorem selectedCore_spec (h : maxValid r slotCounts slotBusys = true) :
    ∃ m : Fin P.coreCount, (selectedCore r slotCounts slotBusys).toNat = m ∧
      r.incomeCores m = true ∧ slotBusys m = false ∧ slotCounts m ≠ 0 := by
  obtain ⟨hk, j, hid, hmask, hcount, -⟩ := selectedCore_largest h
  obtain ⟨hincome, hbusy⟩ := Bool.and_eq_true_iff.mp hmask
  exact ⟨_, hid, hincome, by simpa using hbusy, hcount⟩

end Selected

end LbRrLu
end Rosebud
