import Rosebud.Ledger
import Rosebud.LbRrLu

/-! # Slots are not handed out twice

`lb_controller` and `lb_rr_lu` wired together.  Two parties take slots from a core's
keeper: the policy, which looks at the slot counts and names the slot in `desc_data`,
and the inter-core arbiter, which looks at the valid bits.  Cores give slots back and
initialise their keepers by messages, which reach the keeper one register later.

Everything that happens to the slots of a core is written into a ledger.  The
invariant of a core (`CoreInv`) says that what its keeper holds, what is in the
register on the way to it and what the ledger has out are disjoint, and that the
keeper's count is right.  It needs of the cores that they return only slots they have,
and initialise only a flushed keeper (`Lawful`) with no more slots than it has
(`InitFits`); `oversized_init` shows why the latter is needed.
-/
namespace Rosebud.SlotAllocation
open Clocked Ledger

variable {P : LuConfig}

/-- One cycle of the cores, the host and the interfaces. -/
structure Cycle (P : LuConfig) where
  ctrlMAxisTready : Bool
  ctrlSAxisTdata : BitVec 36
  ctrlSAxisTvalid : Bool
  ctrlSAxisTuser : BitVec P.coreIdWidth
  lu : LbRrLu.Cycle P

structure Balancer (P : LuConfig) where
  ctrl : LbController.Regs P.toLbConfig
  lu : LbRrLu.Regs P
  log : Fin P.coreCount → List Event

namespace Balancer
variable (b : Balancer P) (c : Cycle P) (m : Fin P.coreCount)

/-! ## The two modules together -/

def selectedCore : BitVec P.coreIdWidth :=
  LbRrLu.selectedCore b.lu (LbController.slotCounts b.ctrl) (LbController.slotBusys b.ctrl)

def descPop : Bool :=
  LbRrLu.descPop b.lu (LbController.slotCounts b.ctrl) (LbController.slotBusys b.ctrl)

def ctrlCycle : LbController.Cycle P.toLbConfig where
  ctrlMAxisTready := c.ctrlMAxisTready
  ctrlSAxisTdata := c.ctrlSAxisTdata
  ctrlSAxisTvalid := c.ctrlSAxisTvalid
  ctrlSAxisTuser := c.ctrlSAxisTuser
  enabledCores := b.lu.enabledCores
  slotsFlush := b.lu.slotsFlush
  selectedCore := b.selectedCore
  descPop := b.descPop

def slots : LbRrLu.Slots P where
  slotCounts := LbController.slotCounts b.ctrl
  slotBusys := LbController.slotBusys b.ctrl
  descData := LbController.descData b.ctrl (b.ctrlCycle c)

/-- The slot named by `desc_data`. -/
def descSlot : BitVec P.slotWidth := (b.slots c).descData.setWidth P.slotWidth

/-- The policy hands out a slot of core `m`. -/
def policyTakes : Bool := b.descPop && decide (b.selectedCore.toNat = m)

/-- The inter-core arbiter takes a slot of core `m`. -/
def arbiterTakes : Bool :=
  (LbController.pktToCoreValid b.ctrl m && LbController.slotValids b.ctrl m &&
    b.lu.enabledCores m) && LbController.arbToCoreReady b.ctrl m

/-- Core `m` sends a message of the given type. -/
def sends (type : BitVec 4) : Bool :=
  LbController.offers (b.ctrlCycle c) type && decide (c.ctrlSAxisTuser.toNat = m)

def slotField : BitVec P.slotWidth := LbController.slotField (b.ctrlCycle c)

/-- The entries of a cycle: what is handed out, then what the core says. -/
def handOuts : List Event :=
  (if b.policyTakes m then [.take (b.descSlot c).toNat] else []) ++
    (if b.arbiterTakes m then [.take (LbController.nextSlot b.ctrl m).toNat] else [])

def messages : List Event :=
  if b.sends c m 0 then [.giveBack (b.slotField c).toNat]
  else if b.sends c m 3 then [.restart (b.slotField c).toNat]
  else []

def step : Balancer P where
  ctrl := LbController.next b.ctrl (b.ctrlCycle c)
  lu := LbRrLu.next b.lu c.lu (b.slots c)
  log := fun m => b.log m ++ b.handOuts c m ++ b.messages c m

/-! ## What is asked of the cores -/

/-- The keeper of core `m` is empty and nothing is on its way to it. -/
def Flushed : Prop :=
  (b.ctrl.slotKeeper m).occupied = 0 ∧ b.ctrl.enqSlotV m = false ∧ b.ctrl.initSlotV m = false
deriving Decidable

/-- A core returns only slots it has, and initialises only a keeper that is flushed or
being flushed. -/
def Lawful : Prop :=
  ∀ m, (b.sends c m 0 = true → b.slotField c ≠ 0 → held (b.log m) (b.slotField c).toNat = true) ∧
    (b.sends c m 3 = true → b.lu.slotsFlush m = true ∨ b.Flushed m)
deriving Decidable

/-- An initialisation names no more slots than a keeper has. -/
def InitFits : Prop := ∀ m, b.sends c m 3 = true → (b.slotField c).toNat ≤ P.slotCount
deriving Decidable

/-- Out of reset, with an empty ledger. -/
structure Start (b : Balancer P) : Prop where
  ctrl : LbController.Fresh b.ctrl
  lu : LbRrLu.Fresh b.lu
  log : ∀ m, b.log m = []

end Balancer

/-! ## The invariant of a core -/

structure CoreInv (b : Balancer P) (m : Fin P.coreCount) : Prop where
  counted : (b.ctrl.slotKeeper m).Counted
  free_not_held : ∀ s ∈ (b.ctrl.slotKeeper m).free, held (b.log m) s = false
  held_le : ∀ s, held (b.log m) s = true → s ≤ P.slotCount
  enq : b.ctrl.enqSlotV m = true → b.ctrl.inputSlot ≠ 0 →
    b.ctrl.inputSlot.toNat ≤ P.slotCount ∧
      b.ctrl.inputSlot.toNat ∉ (b.ctrl.slotKeeper m).free ∧
      held (b.log m) b.ctrl.inputSlot.toNat = false
  init : b.ctrl.initSlotV m = true →
    (b.ctrl.slotKeeper m).free = ∅ ∧ b.ctrl.enqSlotV m = false ∧
      b.ctrl.inputSlot.toNat ≤ P.slotCount ∧
      ∀ s, s ≤ b.ctrl.inputSlot.toNat → held (b.log m) s = false
  sound : Sound (b.log m)

theorem Balancer.Start.inv {b : Balancer P} (h : b.Start) (m : Fin P.coreCount) :
    CoreInv b m := by
  obtain ⟨hocc, -, hlast, hcount, hvalid, -⟩ := h.ctrl.slotKeeper m
  have hfree : (b.ctrl.slotKeeper m).free = ∅ := by
    rw [SlotKeeper.free, hocc, SlotKeeper.slotsOf_zero]
  refine ⟨⟨hlast, ?_, ?_⟩, ?_, ?_, ?_, ?_, ?_⟩
  · rw [hfree, hcount]
    rfl
  · simp [hfree, hvalid]
  · simp [hfree]
  · simp [h.log m]
  · simp [h.ctrl.enqSlotV m]
  · simp [h.ctrl.initSlotV m]
  · rw [h.log m]
    exact sound_nil

section HandOut
variable {b : Balancer P} {c : Cycle P} {m : Fin P.coreCount}

/-- The inputs of the keeper of core `m`. -/
abbrev keeperInputs (b : Balancer P) (c : Cycle P) (m : Fin P.coreCount) :
    SlotKeeper.Inputs P.slotWidth :=
  LbController.keeperInputs b.ctrl (b.ctrlCycle c) m

/-- The policy takes only from a keeper that has a slot, and not from one the arbiter
may take from in the same cycle. -/
theorem policy_spec (h : CoreInv b m) (ht : b.policyTakes m = true) :
    LbController.slotValids b.ctrl m = true ∧ LbController.slotBusys b.ctrl m = false := by
  obtain ⟨hpop, hsel⟩ := Bool.and_eq_true_iff.mp ht
  obtain ⟨m', hm', -, hbusy, hcount⟩ :=
    LbRrLu.selectedCore_spec (Bool.and_eq_true_iff.mp hpop).2
  obtain rfl : m' = m := Fin.ext (hm'.symm.trans (of_decide_eq_true hsel))
  refine ⟨h.counted.validR.mpr (Finset.card_pos.mp (Nat.pos_of_ne_zero fun hz => hcount ?_)), hbusy⟩
  rw [← h.counted.slotCountR] at hz
  change BitVec.setWidth _ _ = _
  rw [BitVec.eq_of_toNat_eq (y := 0) hz]
  exact BitVec.setWidth_zero _ _

/-- `desc_data` names the slot the keeper of the selected core offers. -/
theorem descSlot_eq (ht : b.policyTakes m = true) :
    b.descSlot c = LbController.nextSlot b.ctrl m := by
  have hsel : b.selectedCore.toNat = m := of_decide_eq_true (Bool.and_eq_true_iff.mp ht).2
  have htag : P.slotWidth ≤ P.tagWidth := by
    unfold LbConfig.tagWidth
    split <;> omega
  have hslot : padded 0 (LbController.nextSlot b.ctrl) b.selectedCore.toNat =
      LbController.nextSlot b.ctrl m := by
    rw [hsel, padded_val]
  change BitVec.setWidth _ (_ ++ BitVec.setWidth _ (padded 0 _ b.selectedCore.toNat)) = _
  rw [hslot]
  ext i hi
  have hi' : i < P.tagWidth := by omega
  rw [BitVec.getElem_setWidth, BitVec.getLsbD_append, if_pos hi', BitVec.getLsbD_setWidth]
  simp [hi, hi']

/-- A cycle hands out the slot the keeper offers if the keeper is popped, and nothing
otherwise. -/
theorem handOuts_eq (h : CoreInv b m) :
    b.handOuts c m =
      if (b.ctrl.slotKeeper m).deque (keeperInputs b c m) then
        [.take (b.ctrl.slotKeeper m).selectedSlot.toNat] else [] := by
  have hpop : (b.ctrl.slotKeeper m).deque (keeperInputs b c m) =
      (LbController.slotValids b.ctrl m &&
        (b.policyTakes m || (LbController.slotBusys b.ctrl m && b.lu.enabledCores m))) := rfl
  have harb : b.arbiterTakes m =
      (LbController.slotValids b.ctrl m &&
        (LbController.slotBusys b.ctrl m && b.lu.enabledCores m)) := by
    simp only [Balancer.arbiterTakes, LbController.slotBusys]
    cases LbController.slotValids b.ctrl m <;> cases LbController.pktToCoreValid b.ctrl m <;>
      cases LbController.arbToCoreReady b.ctrl m <;> cases b.lu.enabledCores m <;> rfl
  unfold Balancer.handOuts
  cases ht : b.policyTakes m with
  | true =>
    obtain ⟨hvalid, hbusy⟩ := policy_spec h ht
    rw [hpop, harb, descSlot_eq ht]
    simp [hvalid, hbusy, ht]
    rfl
  | false =>
    rw [hpop, harb]
    simp [ht]
    rfl

end HandOut

/-! ## A cycle -/

section Steps
variable {b : Balancer P} {c : Cycle P} {m : Fin P.coreCount}

theorem clean (h : CoreInv b m) : (b.ctrl.slotKeeper m).Clean (keeperInputs b c m) where
  enque := by
    intro he
    obtain ⟨hv, hne⟩ := Bool.and_eq_true_iff.mp he
    obtain ⟨hle, hfree, -⟩ := h.enq hv (of_decide_eq_true hne)
    exact ⟨hle, hfree⟩
  init := by
    intro hi
    obtain ⟨hfree, henq, hle, -⟩ := h.init hi
    have hno : SlotKeeper.enque (keeperInputs b c m) = false := by
      change (b.ctrl.enqSlotV m && _) = false
      rw [henq, Bool.false_and]
    exact ⟨hfree, hno, hle⟩

theorem free_step (h : CoreInv b m) : ((b.step c).ctrl.slotKeeper m).free =
    (b.ctrl.slotKeeper m).nextFree (keeperInputs b c m) :=
  SlotKeeper.free_next P.slotCount_lt P.slotCount_lt_two_pow h.counted (clean h)

/-- What is out after the hand-outs of a cycle. -/
theorem held_handOuts (h : CoreInv b m) (s : Nat) :
    held (b.log m ++ b.handOuts c m) s =
      (held (b.log m) s || ((b.ctrl.slotKeeper m).deque (keeperInputs b c m) &&
        decide ((b.ctrl.slotKeeper m).selectedSlot.toNat = s))) := by
  rw [handOuts_eq h]
  cases hd : (b.ctrl.slotKeeper m).deque (keeperInputs b c m) with
  | true => simp
  | false => simp

/-- What is out after the core's message. -/
theorem held_messages (log : List Event) (s : Nat) :
    held (log ++ b.messages c m) s =
      (held log s && !(b.sends c m 0 && decide ((b.slotField c).toNat = s)) &&
        !(!b.sends c m 0 && b.sends c m 3 && decide (s ≤ (b.slotField c).toNat))) := by
  unfold Balancer.messages
  cases b.sends c m 0 <;> cases b.sends c m 3 <;> simp

/-- A slot that was not out and is not the one handed out is not out afterwards. -/
theorem not_held_step (h : CoreInv b m) {s : Nat} (hs : held (b.log m) s = false)
    (hne : (b.ctrl.slotKeeper m).deque (keeperInputs b c m) = true →
      (b.ctrl.slotKeeper m).selectedSlot.toNat ≠ s) : held ((b.step c).log m) s = false := by
  have hout : held (b.log m ++ b.handOuts c m) s = false := by
    rw [held_handOuts h, hs, Bool.false_or]
    cases hd : (b.ctrl.slotKeeper m).deque (keeperInputs b c m) with
    | true => simpa using hne hd
    | false => rfl
  rw [Balancer.step, held_messages, hout, Bool.false_and, Bool.false_and]

/-- Where the free slots of the next cycle come from. -/
theorem free_step_cases (h : CoreInv b m) {s : Nat}
    (hs : s ∈ ((b.step c).ctrl.slotKeeper m).free) :
    held (b.log m) s = false ∧
      ((b.ctrl.slotKeeper m).deque (keeperInputs b c m) = true →
        (b.ctrl.slotKeeper m).selectedSlot.toNat ≠ s) := by
  rw [free_step h, SlotKeeper.nextFree] at hs
  split at hs
  · exact absurd hs (Finset.notMem_empty s)
  · split at hs
    · rename_i hi
      obtain ⟨-, -, -, hnot⟩ := h.init hi
      have hd := SlotKeeper.deque_of_init h.counted (clean (c := c) h) hi
      refine ⟨hnot s (Finset.mem_Icc.mp hs).2, fun hd' => ?_⟩
      rw [hd] at hd'
      exact absurd hd' Bool.false_ne_true
    · have hstored : ∀ x, x ∈ (if SlotKeeper.enque (keeperInputs b c m) then
          insert (keeperInputs b c m).slotIn.toNat (b.ctrl.slotKeeper m).free
          else (b.ctrl.slotKeeper m).free) → held (b.log m) x = false := by
        intro x hx
        split at hx
        · rename_i he
          obtain ⟨hv, hne⟩ := Bool.and_eq_true_iff.mp he
          rcases Finset.mem_insert.mp hx with rfl | hx
          · exact (h.enq hv (of_decide_eq_true hne)).2.2
          · exact h.free_not_held x hx
        · exact h.free_not_held x hx
      unfold SlotKeeper.exchanged at hs
      cases hd : (b.ctrl.slotKeeper m).deque (keeperInputs b c m) with
      | true =>
        rw [hd, if_pos rfl] at hs
        obtain ⟨hne, hs⟩ := Finset.mem_erase.mp hs
        exact ⟨hstored s hs, fun _ => hne.symm⟩
      | false =>
        rw [hd, if_neg Bool.false_ne_true] at hs
        exact ⟨hstored s hs, fun hd' => absurd hd' Bool.false_ne_true⟩

theorem held_le_step (h : CoreInv b m) {s : Nat} (hs : held ((b.step c).log m) s = true) :
    s ≤ P.slotCount := by
  by_contra hgt
  have hold : held (b.log m) s = false := by
    by_contra hheld
    exact hgt (h.held_le s (Bool.not_eq_false _ ▸ hheld))
  rw [not_held_step h hold] at hs
  · exact Bool.false_ne_true hs
  · intro hd heq
    have hmem := SlotKeeper.selectedSlot_mem_of_deque P.slotCount_lt_two_pow h.counted hd
    rw [heq] at hmem
    exact hgt (SlotKeeper.le_of_mem_free hmem).2

/-- The slot of a lawful return is on its way back afterwards, and nowhere else. -/
theorem enq_step (h : CoreInv b m) (hl : b.Lawful c) (henq : b.sends c m 0 = true)
    (hne : b.slotField c ≠ 0) :
    (b.slotField c).toNat ≤ P.slotCount ∧
      (b.slotField c).toNat ∉ ((b.step c).ctrl.slotKeeper m).free ∧
      held ((b.step c).log m) (b.slotField c).toNat = false := by
  have hheld := (hl m).1 henq hne
  refine ⟨h.held_le _ hheld, ?_, ?_⟩
  · intro hmem
    rw [(free_step_cases h hmem).1] at hheld
    exact Bool.false_ne_true hheld
  · rw [Balancer.step, held_messages, henq]
    simp

/-- A message is of one type. -/
theorem sends_exclusive (h : b.sends c m 3 = true) : b.sends c m 0 = false := by
  have ht : LbController.msgType (b.ctrlCycle c) = 3 :=
    of_decide_eq_true (Bool.and_eq_true_iff.mp (Bool.and_eq_true_iff.mp h).1).2
  simp [Balancer.sends, LbController.offers, ht]

/-- After a lawful initialisation the keeper is empty, with the slots on their way. -/
theorem init_step (h : CoreInv b m) (hl : b.Lawful c) (hfit : b.InitFits c)
    (hinit : b.sends c m 3 = true) :
    ((b.step c).ctrl.slotKeeper m).free = ∅ ∧ b.sends c m 0 = false ∧
      (b.slotField c).toNat ≤ P.slotCount ∧
      ∀ s, s ≤ (b.slotField c).toNat → held ((b.step c).log m) s = false := by
  refine ⟨?_, sends_exclusive hinit, hfit m hinit, ?_⟩
  · rw [free_step h, SlotKeeper.nextFree]
    rcases (hl m).2 hinit with hflush | ⟨hocc, henq, hini⟩
    · exact if_pos hflush
    · have hfree : (b.ctrl.slotKeeper m).free = ∅ := by
        rw [SlotKeeper.free, hocc, SlotKeeper.slotsOf_zero]
      have hno : SlotKeeper.enque (keeperInputs b c m) = false := by
        rw [SlotKeeper.enque]
        change (b.ctrl.enqSlotV m && _) = false
        rw [henq, Bool.false_and]
      have hin : (keeperInputs b c m).initValid = false := hini
      simp [SlotKeeper.exchanged, hno, hin, hfree]
  · intro s hs
    rw [Balancer.step, held_messages, hinit, sends_exclusive hinit]
    simp [hs]

theorem sound_step (h : CoreInv b m) : Sound ((b.step c).log m) := by
  have hhand : Sound (b.log m ++ b.handOuts c m) := by
    rw [handOuts_eq h]
    cases hd : (b.ctrl.slotKeeper m).deque (keeperInputs b c m) with
    | false => simpa using h.sound
    | true =>
      refine h.sound.snoc ?_
      intro s hs
      obtain rfl := Event.take.inj hs
      exact h.free_not_held _
        (SlotKeeper.selectedSlot_mem_of_deque P.slotCount_lt_two_pow h.counted hd)
  change Sound (b.log m ++ b.handOuts c m ++ b.messages c m)
  unfold Balancer.messages
  split
  · exact hhand.snoc fun s hs => Event.noConfusion hs
  · split
    · exact hhand.snoc fun s hs => Event.noConfusion hs
    · simpa using hhand

theorem inv_step (h : CoreInv b m) (hl : b.Lawful c) (hfit : b.InitFits c) :
    CoreInv (b.step c) m where
  counted := h.counted.next P.slotCount_lt P.slotCount_lt_two_pow (clean h)
  free_not_held := fun _ hs => not_held_step h (free_step_cases h hs).1 (free_step_cases h hs).2
  held_le := fun _ hs => held_le_step h hs
  enq := fun henq hne => enq_step h hl henq hne
  init := fun hinit => init_step h hl hfit hinit
  sound := sound_step h

end Steps

/-- **No slot is handed out twice.**  In every run from reset in which the cores
return only slots they have and initialise only a flushed keeper, with no more slots
than it has: between two hand-outs of a slot, by the policy or to another core, the
core has returned it or initialised its keeper again; a hand-out takes place only while
the keeper's valid bit is set and names a slot that is free; and policy and arbiter do
not take from one keeper in one cycle. -/
theorem no_double_allocation {b₀ : Balancer P} (hstart : b₀.Start) (cycles : List (Cycle P))
    (hm : Meets Balancer.step (fun b c => b.Lawful c ∧ b.InitFits c) b₀ cycles) :
    let b := run Balancer.step b₀ cycles
    (∀ m s before between after,
      b.log m = before ++ .take s :: (between ++ .take s :: after) →
        ∃ e ∈ between, e.frees s = true) ∧
      (∀ m, b.policyTakes m = true ∨ b.arbiterTakes m = true →
        LbController.slotValids b.ctrl m = true ∧
          (LbController.nextSlot b.ctrl m).toNat ∈ (b.ctrl.slotKeeper m).free) ∧
      (∀ c m, b.policyTakes m = true → b.descSlot c = LbController.nextSlot b.ctrl m) ∧
      ∀ m, ¬ (b.policyTakes m = true ∧ b.arbiterTakes m = true) := by
  intro b
  have h : ∀ m, CoreInv b m :=
    run_invariant (P := fun b => ∀ m, CoreInv b m)
      (fun _ _ h hc m => inv_step (h m) hc.1 hc.2) hstart.inv hm
  have harb : ∀ m, b.arbiterTakes m = true →
      LbController.slotValids b.ctrl m = true ∧ LbController.slotBusys b.ctrl m = true := by
    intro m ht
    simp only [Balancer.arbiterTakes, Bool.and_eq_true] at ht
    simp [LbController.slotBusys, ht]
  refine ⟨?_, ?_, fun c m ht => descSlot_eq ht, ?_⟩
  · intro m s before between after heq
    exact (h m).sound.freed_between heq
  · intro m ht
    have hv : LbController.slotValids b.ctrl m = true := by
      rcases ht with ht | ht
      · exact (policy_spec (h m) ht).1
      · exact (harb m ht).1
    exact ⟨hv, SlotKeeper.selectedSlot_mem P.slotCount_lt_two_pow ((h m).counted.validR.mp hv)⟩
  · rintro m ⟨hp, ha⟩
    have hbusy := (policy_spec (h m) hp).2
    rw [(harb m ha).2] at hbusy
    exact Bool.false_ne_true hbusy.symm

/-! ## Too many slots -/

def sampleConfig : LuConfig := .small 2

def core0 : Fin sampleConfig.coreCount := ⟨0, by decide⟩

def sampleBalancer : Balancer sampleConfig := ⟨.reset, default, fun _ => []⟩

theorem sampleBalancer_start : sampleBalancer.Start :=
  ⟨LbController.Regs.reset_fresh, .default, fun _ => rfl⟩

/-- Both interfaces offer packets of one word, and the host is silent. -/
def busy : Cycle sampleConfig where
  ctrlMAxisTready := true
  ctrlSAxisTdata := 0
  ctrlSAxisTvalid := false
  ctrlSAxisTuser := 0
  lu :=
    { hostCmd := 0
      hostCmdForInts := false
      hostCmdWrData := 0
      hostCmdWrEn := false
      sAxisTvalid := fun _ => true
      sAxisTlast := fun _ => true
      mAxisTready := fun _ => true }

/-- The host writes a register of the cores. -/
def hostWriting (reg : BitVec 29) (data : BitVec 32) : Cycle sampleConfig :=
  { busy with lu := { busy.lu with hostCmd := reg, hostCmdWrData := data, hostCmdWrEn := true } }

/-- Core 0 initialises its keeper. -/
def initialising (slots : BitVec 16) : Cycle sampleConfig :=
  { busy with
    ctrlSAxisTdata := (3 : BitVec 4) ++ slots ++ (0 : BitVec 16)
    ctrlSAxisTvalid := true }

/-- Core 0 is enabled, initialised, and packets arrive. -/
def sampleRun (slots : BitVec 16) : List (Cycle sampleConfig) :=
  [hostWriting 0 1, hostWriting 1 1, initialising slots, busy, busy, busy, busy, busy, busy]

theorem no_double_allocation_twoSlots :
    (run Balancer.step sampleBalancer (sampleRun 2)).log core0 = [.restart 2, .take 1, .take 2] ∧
      ∀ m s before between after,
        (run Balancer.step sampleBalancer (sampleRun 2)).log m =
          before ++ .take s :: (between ++ .take s :: after) → ∃ e ∈ between, e.frees s = true :=
  ⟨by decide +kernel,
    (no_double_allocation sampleBalancer_start (sampleRun 2) (by decide +kernel)).1⟩

/-- **A core that initialises three slots of two is handed out its first slot again
and again**: the bitmap stays empty while the count and the valid bit say otherwise. -/
theorem oversized_init :
    Meets Balancer.step Balancer.Lawful sampleBalancer (sampleRun 3) ∧
      (run Balancer.step sampleBalancer (sampleRun 3)).log core0 =
        [.restart 3, .take 1, .take 1, .take 1] := by
  decide +kernel

end Rosebud.SlotAllocation
