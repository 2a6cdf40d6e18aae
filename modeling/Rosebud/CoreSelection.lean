import Rosebud.PacketStamps

/-! # Which core `lb_rr_lu` selects

Whatever the host writes, a core that takes packets is enabled.  A descriptor is popped of
the core with the most free slots in its cluster, and the clusters take turns: the arbiter's
mask is a pointer on the circle of clusters, and a cluster with a core to offer comes nearer
to it with every pop of another cluster.
-/
namespace Rosebud.LbRrLu
open Clocked

variable {P : LuConfig}

/-- One cycle of the policy under a host, interfaces and slot counts that do as they like. -/
def cycle (r : Regs P) (i : Cycle P × Slots P) : Regs P := next r i.1 i.2

/-- A descriptor of the core may be popped. -/
def Candidate (r : Regs P) (slots : Slots P) (m : Fin P.coreCount) : Prop :=
  r.incomeCores m = true ∧ slots.slotBusys m = false ∧ slots.slotCounts m ≠ 0
deriving Decidable

/-- A descriptor is popped. -/
def Pops (r : Regs P) (i : Cycle P × Slots P) : Prop :=
  descPop r i.2.slotCounts i.2.slotBusys = true
deriving Decidable

/-- The selected core is a candidate, and no core of its cluster that is income enabled and
not busy has more slots. -/
def SelectsLargest (r : Regs P) (slots : Slots P) : Prop :=
  ∃ (hk : selectedCluster r slots.slotCounts slots.slotBusys < P.clusterCount)
    (j : Fin P.clusterCores),
    (selectedCore r slots.slotCounts slots.slotBusys).toNat = P.coreAt ⟨_, hk⟩ j ∧
      Candidate r slots (P.coreAt ⟨_, hk⟩ j) ∧
      ∀ j', r.incomeCores (P.coreAt ⟨_, hk⟩ j') = true →
        slots.slotBusys (P.coreAt ⟨_, hk⟩ j') = false →
        slots.slotCounts (P.coreAt ⟨_, hk⟩ j') ≤ slots.slotCounts (P.coreAt ⟨_, hk⟩ j)

/-- The cluster has a candidate, and a pop takes one of another cluster. -/
def PassesOver (k : Fin P.clusterCount) (r : Regs P) (i : Cycle P × Slots P) : Prop :=
  Pops r i → (∃ j, Candidate r i.2 (P.coreAt k j)) ∧
    selectedCluster r i.2.slotCounts i.2.slotBusys ≠ k

instance (k : Fin P.clusterCount) (r : Regs P) (i : Cycle P × Slots P) :
    Decidable (PassesOver k r i) :=
  inferInstanceAs (Decidable (_ → _ ∧ _))

/-! ## One cycle -/

section Step
variable {r : Regs P} {slots : Slots P}

theorem income_enabled_next (h : ∀ m, r.incomeCores m = true → r.enabledCores m = true)
    (i : Cycle P × Slots P) (m : Fin P.coreCount)
    (hin : (cycle r i).incomeCores m = true) : (cycle r i).enabledCores m = true := by
  simp only [cycle, next] at hin ⊢
  by_cases hzero : hostWrites i.1 false 0 = true
  · rw [if_pos hzero] at hin ⊢
    exact (Bool.and_eq_true_iff.mp hin).2
  · rw [if_neg hzero] at hin ⊢
    by_cases hone : hostWrites i.1 false 1 = true
    · rw [if_pos hone] at hin
      exact (Bool.and_eq_true_iff.mp hin).2
    · rw [if_neg hone] at hin
      exact h m hin

theorem selectsLargest (hpop : descPop r slots.slotCounts slots.slotBusys = true) :
    SelectsLargest r slots := by
  obtain ⟨hk, j, hid, hmask, hcount, hlargest⟩ :=
    selectedCore_largest (Bool.and_eq_true_iff.mp hpop).2
  obtain ⟨hincome, hbusy⟩ := Bool.and_eq_true_iff.mp hmask
  refine ⟨hk, j, hid, ⟨hincome, by simpa using hbusy, hcount⟩, ?_⟩
  intro j' hin' hbusy'
  exact hlargest j' (by simp [masks, hin', hbusy'])

/-- A cluster with a candidate asks for its turn. -/
theorem clusterMaxValid_of_candidate {k : Fin P.clusterCount} {j : Fin P.clusterCores}
    (h : Candidate r slots (P.coreAt k j)) :
    clusterMaxValid r slots.slotCounts slots.slotBusys k = true := by
  obtain ⟨hincome, hbusy, hcount⟩ := h
  refine decide_eq_true ⟨j, ?_⟩
  simpa [MaxFinderTree.maskedValues, masks, hincome, hbusy] using hcount

end Step

/-! ## Turns -/

/-- The clusters from the pointer to `k`. -/
def Waits (k : Fin P.clusterCount) (r : Regs P) (d : Nat) : Prop :=
  ∃ t, r.maxSlotArbiter.From t ∧ d = RoundRobin.ahead P.clusterCount t k

/-- A pop of another cluster brings `k` nearer. -/
theorem Waits.step {k : Fin P.clusterCount} {r : Regs P} {i : Cycle P × Slots P} {d : Nat}
    (h : Waits k r d) (hpass : PassesOver k r i) :
    ∃ d', Waits k (cycle r i) d' ∧ d' + (if Pops r i then 1 else 0) ≤ d := by
  obtain ⟨t, hfrom, rfl⟩ := h
  have hnext := @SimpleArbiter.From.next _ _ (clusterMaxValid r i.2.slotCounts i.2.slotBusys) t
    hfrom (selectedPortV r)
  refine ⟨_, ⟨_, hnext, rfl⟩, ?_⟩
  have hcomm : (r.maxSlotArbiter.grantValid (clusterMaxValid r i.2.slotCounts i.2.slotBusys) &&
      selectedPortV r) = descPop r i.2.slotCounts i.2.slotBusys := Bool.and_comm _ _
  rw [hcomm]
  by_cases hpop : Pops r i
  · obtain ⟨⟨j, hj⟩, hne⟩ := hpass hpop
    have hvalid := (Bool.and_eq_true_iff.mp hpop).2
    obtain ⟨hlt, -⟩ := SimpleArbiter.request_of_grantValid hvalid
    have hturn := SimpleArbiter.turn_of_grantValid hfrom hvalid hlt
    have hless := hturn.ahead_lt hfrom.1 hlt k.isLt (clusterMaxValid_of_candidate hj) hne
    have hpop' : descPop r i.2.slotCounts i.2.slotBusys = true := hpop
    rw [if_pos hpop, hpop', if_pos rfl]
    exact hless
  · have hpop' : descPop r i.2.slotCounts i.2.slotBusys = false := Bool.eq_false_iff.mpr hpop
    rw [if_neg hpop, hpop', if_neg Bool.false_ne_true, Nat.add_zero]

/-- **The selection policy.**  Whatever the host writes and whatever the interfaces and the
slot counts do: the income enabled cores are enabled; a descriptor is popped of a core that
is income enabled and not busy and has, of those in its cluster, the most slots and at least
one; and a cluster that has such a core whenever a descriptor is popped is passed over by at
most as many pops in a row as there are other clusters. -/
theorem core_selection {r : Regs P} (hfresh : Fresh r) (cycles : List (Cycle P × Slots P)) :
    let e := run cycle r cycles
    (∀ m, e.incomeCores m = true → e.enabledCores m = true) ∧
      (∀ slots : Slots P, descPop e slots.slotCounts slots.slotBusys = true →
        SelectsLargest e slots) ∧
      ∀ (k : Fin P.clusterCount) (more : List (Cycle P × Slots P)),
        Meets cycle (PassesOver k) e more → tally cycle Pops e more ≤ P.clusterCount - 1 := by
  intro e
  refine ⟨?_, fun slots hpop => selectsLargest hpop, ?_⟩
  · have hinv : ∀ m, e.incomeCores m = true → e.enabledCores m = true :=
      run_preserves (P := fun r : Regs P => ∀ m, r.incomeCores m = true → r.enabledCores m = true)
        (fun _ i h => income_enabled_next h i)
        (fun m hin => absurd ((hfresh.incomeCores m).symm.trans hin) Bool.false_ne_true) cycles
    exact hinv
  · intro k more hpass
    have hfrom : ∃ t, e.maxSlotArbiter.From t :=
      run_preserves (P := fun r : Regs P => ∃ t, r.maxSlotArbiter.From t)
        (fun _ i ⟨_, h⟩ => ⟨_, h.next _⟩)
        ⟨_, SimpleArbiter.from_of_clear hfresh.maxSlotArbiter⟩ cycles
    obtain ⟨t, ht⟩ := hfrom
    have hle : tally cycle Pops e more ≤ RoundRobin.ahead P.clusterCount t k :=
      tally_le (R := Waits k) (fun _ _ _ h hc => h.step hc) ⟨t, ht, rfl⟩ hpass
    have hlt := RoundRobin.ahead_lt ht.1 k.isLt
    omega

/-- Both clusters have candidates; the second one waits for one pop of the first. -/
theorem core_selection_oneInterface :
    let e := run cycle idlePort.regs [hostWriting 0, hostWriting 1]
    let more := List.replicate 3 (offering true true 5)
    let k : Fin oneInterface.clusterCount := ⟨1, by decide⟩
    Meets cycle (PassesOver k) e more ∧ tally cycle Pops e more = 1 ∧
      tally cycle Pops e more ≤ 2 - 1 :=
  ⟨by decide +kernel, by decide +kernel,
    (core_selection idlePort_start.regs [hostWriting 0, hostWriting 1]).2.2 ⟨1, by decide⟩ _
      (by decide +kernel)⟩

end Rosebud.LbRrLu
