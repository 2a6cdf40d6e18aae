import Rosebud.SlotAllocation

/-! # No slot is lost, and a core can be taken out of service

From the message on that initialises the keeper of a core with `n` slots, and as long as the host
does not flush it, each of them is in one place: in the keeper, in the register before it, or
handed out (`slots_conserved`).

`reset_single_core` of the host library disables a core and waits until the keeper counts all the
slots.  Then none is out (`disabled_core_drained`).
-/
namespace Rosebud.SlotAllocation
open Clocked Ledger

variable {P : LuConfig} {b : Balancer P} {c : Cycle P} {m : Fin P.coreCount} {n s : Nat}

/-- Where a slot can be. -/
inductive Place where
  | keeper
  | returning
  | starting
  | out

namespace Balancer

/-- Slot `s` of core `m` is at a place. -/
def At (b : Balancer P) (m : Fin P.coreCount) (s : Nat) : Place → Prop
  | .keeper => s ∈ (b.ctrl.slotKeeper m).free
  | .returning => b.ctrl.enqSlotV m = true ∧ b.ctrl.inputSlot.toNat = s
  | .starting => b.ctrl.initSlotV m = true ∧ s ≤ b.ctrl.inputSlot.toNat
  | .out => held (b.log m) s = true

/-- Core `m` initialises its keeper with `n` slots. -/
def Starts (b : Balancer P) (c : Cycle P) (m : Fin P.coreCount) (n : Nat) : Prop :=
  b.sends c m 3 = true ∧ (b.slotField c).toNat = n

end Balancer

/-! ## Conservation -/

/-- A slot is nowhere twice. -/
theorem at_unique (h : CoreInv b m) (hs : 1 ≤ s) {p q : Place} (hp : b.At m s p)
    (hq : b.At m s q) : p = q := by
  have hfree := h.free_not_held s
  have henq : b.At m s .returning → s ∉ (b.ctrl.slotKeeper m).free ∧ held (b.log m) s = false := by
    rintro ⟨hv, rfl⟩
    exact (h.enq hv fun h0 => by simp [h0] at hs).2
  have hinit : b.At m s .starting → (b.ctrl.slotKeeper m).free = ∅ ∧ b.ctrl.enqSlotV m = false ∧
      held (b.log m) s = false := fun ⟨hv, hle⟩ =>
    ⟨(h.init hv).1, (h.init hv).2.1, (h.init hv).2.2.2 s hle⟩
  cases p <;> cases q <;> simp_all [Balancer.At]

/-- The slot is popped in the cycle. -/
def Popped (b : Balancer P) (c : Cycle P) (m : Fin P.coreCount) (s : Nat) : Prop :=
  (b.ctrl.slotKeeper m).deque (keeperInputs b c m) = true ∧
    (b.ctrl.slotKeeper m).selectedSlot.toNat = s

theorem Popped.at_keeper (h : CoreInv b m) (hp : Popped b c m s) : b.At m s .keeper :=
  hp.2 ▸ SlotKeeper.selectedSlot_mem_of_deque P.slotCount_lt_two_pow h.counted hp.1

/-- What the keeper has after a cycle. -/
theorem at_keeper_step (h : CoreInv b m) (hs : 1 ≤ s) : (b.step c).At m s .keeper ↔
    b.lu.slotsFlush m = false ∧ (b.At m s .starting ∨
      (b.At m s .keeper ∨ b.At m s .returning) ∧ ¬Popped b c m s) := by
  have hinit : b.ctrl.initSlotV m = true → (b.ctrl.slotKeeper m).free = ∅ ∧
      b.ctrl.enqSlotV m = false := fun hv => ⟨(h.init hv).1, (h.init hv).2.1⟩
  simp only [Balancer.At, Popped, free_step h, SlotKeeper.nextFree, SlotKeeper.exchanged,
    SlotKeeper.enque, LbController.keeperInputs, Balancer.ctrlCycle]
  grind

/-- What is out after a cycle. -/
theorem at_out_step (h : CoreInv b m) : (b.step c).At m s .out ↔
    (b.At m s .out ∨ Popped b c m s) ∧ ¬(b.step c).At m s .returning ∧
      ¬(b.step c).At m s .starting := by
  have hex : b.sends c m 3 = true → b.sends c m 0 = false := sends_exclusive
  change held (b.log m ++ b.handOuts c m ++ b.messages c m) s = true ↔
    (held (b.log m) s = true ∨ _) ∧ ¬(b.sends c m 0 = true ∧ (b.slotField c).toNat = s) ∧
    ¬(b.sends c m 3 = true ∧ s ≤ (b.slotField c).toNat)
  rw [held_messages, held_handOuts h, Popped]
  grind

/-- **One cycle loses no slot.** -/
theorem exists_at_step (h : CoreInv b m) (hflush : b.lu.slotsFlush m = false) (hs : 1 ≤ s)
    {p : Place} (hp : b.At m s p) : ∃ q, (b.step c).At m s q := by
  by_cases hback : (b.step c).At m s .returning
  · exact ⟨_, hback⟩
  by_cases hstart : (b.step c).At m s .starting
  · exact ⟨_, hstart⟩
  by_cases hout : b.At m s .out ∨ Popped b c m s
  · exact ⟨.out, (at_out_step h).mpr ⟨hout, hback, hstart⟩⟩
  · refine ⟨.keeper, (at_keeper_step h hs).mpr ⟨hflush, ?_⟩⟩
    cases p <;> simp_all

/-- **No slot is lost.**  In every run from reset of lawful cores, after core `m` has initialised
its keeper with `n` slots and as long as that is not flushed, each of them is in one place. -/
theorem slots_conserved {b₀ : Balancer P} (hstart : b₀.Start) (m : Fin P.coreCount)
    (before after : List (Cycle P)) (i : Cycle P)
    (hm : Meets Balancer.step (fun b c => b.Lawful c ∧ b.InitFits c) b₀ (before ++ i :: after))
    (hinit : (run Balancer.step b₀ before).Starts i m n)
    (hflush : Meets Balancer.step (fun b _ => b.lu.slotsFlush m = false)
      ((run Balancer.step b₀ before).step i) after) (hs : 1 ≤ s ∧ s ≤ n) :
    ∃! p, (run Balancer.step b₀ (before ++ i :: after)).At m s p := by
  obtain ⟨hbefore, hi, hafter⟩ := meets_append.mp hm
  have hinv : CoreInv (run Balancer.step b₀ before) m :=
    run_invariant (P := fun b => CoreInv b m) (fun _ _ h hc => inv_step h hc.1 hc.2)
      (hstart.inv m) hbefore
  have hat : ∃ p, ((run Balancer.step b₀ before).step i).At m s p :=
    ⟨.starting, hinit.1, hs.2.trans_eq hinit.2.symm⟩
  rw [run_append, run_cons]
  obtain ⟨hinv, p, hp⟩ := run_invariant (P := fun b => CoreInv b m ∧ ∃ p, b.At m s p)
    (fun b c h hc => ⟨inv_step h.1 hc.1.1 hc.1.2, h.2.elim fun _ => exists_at_step h.1 hc.2 hs.1⟩)
    ⟨inv_step hinv hi.1 hi.2, hat⟩ (hafter.and hflush)
  exact ⟨p, hp, fun q hq => at_unique hinv hs.1 hq hp⟩

/-- Slot 2 in the run in which both slots are handed out. -/
theorem slots_conserved_twoSlots :
    ∃! p, (run Balancer.step sampleBalancer (sampleRun 2)).At core0 2 p :=
  slots_conserved (n := 2) sampleBalancer_start core0 [hostWriting 0 1, hostWriting 1 1]
    [busy, busy, busy, busy, busy, busy] (initialising 2) (by decide +kernel)
    (by unfold Balancer.Starts; decide +kernel) (by decide +kernel) (by decide)

/-! ## Eviction -/

/-- The slots of core `m` that are anywhere are the first `n`. -/
def Within (m : Fin P.coreCount) (n : Nat) (b : Balancer P) : Prop :=
  ∀ s p, 1 ≤ s → b.At m s p → s ≤ n

theorem Within.step (h : CoreInv b m) (hw : Within m n b) (hl : b.Lawful c)
    (hn : b.sends c m 3 = true → (b.slotField c).toNat = n) : Within m n (b.step c) := by
  intro s p hs hp
  cases p with
  | keeper =>
    rcases ((at_keeper_step h hs).mp hp).2 with hp | ⟨hp | hp, -⟩ <;> exact hw s _ hs hp
  | returning =>
    obtain ⟨hsend, rfl⟩ := hp
    refine hw _ .out hs ((hl m).1 hsend fun h0 => ?_)
    have hs : 1 ≤ (b.slotField c).toNat := hs
    simp [h0] at hs
  | starting => exact hp.2.trans_eq (hn hp.1)
  | out =>
    rcases ((at_out_step h).mp hp).1 with hp | hp
    · exact hw s _ hs hp
    · exact hw s _ hs (hp.at_keeper h)

/-- No slot of a disabled core is popped. -/
theorem not_popped (hen : b.lu.enabledCores m = false) (hin : b.lu.incomeCores m = false) :
    ¬Popped b c m s := by
  rintro ⟨hpop, -⟩
  have hpolicy : b.policyTakes m = false := by
    by_contra ht
    obtain ⟨hpop, hsel⟩ := Bool.and_eq_true_iff.mp (Bool.not_eq_false _ ▸ ht)
    obtain ⟨m', hm', hin', -⟩ := LbRrLu.selectedCore_spec (Bool.and_eq_true_iff.mp hpop).2
    obtain rfl : m' = m := Fin.ext (hm'.symm.trans (of_decide_eq_true hsel))
    simp [hin] at hin'
  have hpop : (LbController.slotValids b.ctrl m &&
    (b.policyTakes m || (LbController.slotBusys b.ctrl m && b.lu.enabledCores m))) = true := hpop
  simp [hpolicy, hen] at hpop

/-- Core `m` is disabled, and none of its slots is out. -/
structure Drained (m : Fin P.coreCount) (b : Balancer P) : Prop where
  inv : CoreInv b m
  enabled : b.lu.enabledCores m = false
  income : b.lu.incomeCores m = false
  out : ∀ s, 1 ≤ s → held (b.log m) s = false

theorem Drained.step (h : Drained m b) (hl : b.Lawful c) (hfit : b.InitFits c)
    (hoff : LbRrLu.hostWrites c.lu false 0 = true → c.lu.hostCmdWrData.getLsbD m = false) :
    Drained m (b.step c) where
  inv := inv_step h.inv hl hfit
  enabled := by simpa [Balancer.step, LbRrLu.next, h.enabled] using hoff
  income := by simp [Balancer.step, LbRrLu.next, h.income, h.enabled]
  out s hs := by
    by_contra hout
    rcases ((at_out_step h.inv).mp (Bool.not_eq_false _ ▸ hout)).1 with hp | hp
    · exact Bool.false_ne_true ((h.out s hs).symm.trans hp)
    · exact not_popped h.enabled h.income hp

/-- If the keeper has `n` slots, no other is anywhere. -/
theorem not_held_of_count (h : CoreInv b m) (hw : Within m n b)
    (hcount : (LbController.slotCounts b.ctrl m).toNat = n) (hs : 1 ≤ s) :
    held (b.log m) s = false := by
  have hcard : (b.ctrl.slotKeeper m).free.card = n := by
    have hlt := (SlotKeeper.card_slotsOf_le (b.ctrl.slotKeeper m).occupied).trans_lt
      P.slotCount_lt_two_pow
    rw [← hcount, LbController.slotCounts, SlotKeeper.slotCountOut, BitVec.toNat_setWidth,
      h.counted.slotCountR]
    exact (Nat.mod_eq_of_lt hlt).symm
  have hfree : (b.ctrl.slotKeeper m).free = Finset.Icc 1 n := by
    refine Finset.eq_of_subset_of_card_le (fun x hx => Finset.mem_Icc.mpr ?_) (by simp [hcard])
    have hx1 := (SlotKeeper.le_of_mem_free hx).1
    exact ⟨hx1, hw x .keeper hx1 hx⟩
  by_contra hout
  have hle := hw s .out hs (Bool.eq_true_of_not_eq_false hout)
  exact hout (h.free_not_held s (hfree ▸ Finset.mem_Icc.mpr ⟨hs, hle⟩))

/-- **A drained core stays empty.**  Core `m` always initialises its keeper with `n` slots, and is
disabled with `n` slots in the keeper.  Then none of its slots is out, and none is until the host
enables the core again. -/
theorem disabled_core_drained {b₀ : Balancer P} (hstart : b₀.Start) (m : Fin P.coreCount)
    (before after : List (Cycle P))
    (hm : Meets Balancer.step (fun b c => (b.Lawful c ∧ b.InitFits c) ∧
      (b.sends c m 3 = true → (b.slotField c).toNat = n)) b₀ (before ++ after))
    (hen : (run Balancer.step b₀ before).lu.enabledCores m = false)
    (hin : (run Balancer.step b₀ before).lu.incomeCores m = false)
    (hcount : (LbController.slotCounts (run Balancer.step b₀ before).ctrl m).toNat = n)
    (hoff : ∀ c ∈ after, LbRrLu.hostWrites c.lu false 0 = true →
      c.lu.hostCmdWrData.getLsbD m = false) (hs : 1 ≤ s) :
    held ((run Balancer.step b₀ (before ++ after)).log m) s = false := by
  obtain ⟨hbefore, hafter⟩ := meets_append.mp hm
  have hw₀ : Within m n b₀ := by
    obtain ⟨hocc, -⟩ := hstart.ctrl.slotKeeper m
    have hfree : (b₀.ctrl.slotKeeper m).free = ∅ := by
      rw [SlotKeeper.free, hocc, SlotKeeper.slotsOf_zero]
    rintro s (_ | _ | _ | _) hs hp <;> simp [Balancer.At, hfree, hstart.ctrl.enqSlotV m,
      hstart.ctrl.initSlotV m, hstart.log m] at hp
  obtain ⟨hinv, hw⟩ := run_invariant (P := fun b => CoreInv b m ∧ Within m n b)
    (fun b c h hc => ⟨inv_step h.1 hc.1.1 hc.1.2, h.2.step h.1 hc.1.1 hc.2⟩)
    ⟨hstart.inv m, hw₀⟩ hbefore
  rw [run_append]
  exact (run_invariant (fun b c h hc => h.step hc.1.1.1 hc.1.1.2 hc.2)
    (⟨hinv, hen, hin, fun s => not_held_of_count hinv hw hcount⟩ : Drained m _)
    (hafter.and (meets_of_mem hoff _))).out s hs

/-- Core 0 returns a slot. -/
def returning (slot : BitVec 16) : Cycle sampleConfig :=
  { initialising 0 with ctrlSAxisTdata := (0 : BitVec 4) ++ slot ++ (0 : BitVec 16) }

/-- Both slots of core 0 are handed out, the host disables it, and it returns them. -/
def draining : List (Cycle sampleConfig) :=
  sampleRun 2 ++ [hostWriting 0 0, returning 1, returning 2, busy, busy]

/-- Packets go on arriving, and no slot is out. -/
theorem disabled_core_drained_twoSlots :
    (run Balancer.step sampleBalancer draining).log core0 =
        [.restart 2, .take 1, .take 2, .giveBack 1, .giveBack 2] ∧
      held ((run Balancer.step sampleBalancer (draining ++ [busy, busy])).log core0) 1 = false :=
  ⟨by decide +kernel,
    disabled_core_drained (n := 2) sampleBalancer_start core0 draining [busy, busy]
      (by decide +kernel) (by decide +kernel) (by decide +kernel) (by decide +kernel)
      (by decide +kernel) (by decide)⟩

end Rosebud.SlotAllocation
