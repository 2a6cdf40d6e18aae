import Rosebud.HashSelect

/-! # `lb_hash_blocking`

The policy that sends a flow to the core its hash names, and makes it wait for a slot
of that core.  A hash is taken together with a slot, so its head hash blocks an
interface until the core has one.  The first interface found waiting for a core is
written down (`desc_stall`), and while it waits no other interface gets a slot of that
core.

`slots_follow_hashes` is what this amounts to over every run: slots and hashes are
consumed together, from the right core, and the waiting interfaces are served in the
order they were found.
-/
namespace Rosebud.LbHashBlocking
open Clocked HashSelect

variable {P : HashConfig}

/-- The hash and the descriptor allocated for it. -/
abbrev HashNDesc (P : HashConfig) : Type := BitVec 32 × IdTag P

structure Regs (P : HashConfig) extends HashSelect.Regs P (HashNDesc P) where
  descStall : Fin P.coreCount → Nat
  descStallV : Fin P.coreCount → Bool

/-! ## The circuit -/

section Module
variable (r : Regs P) (c : Cycle P)

def descAvail (m : Fin P.coreCount) : Bool :=
  c.slotValids m && r.incomeCores m && !c.slotBusys m

def hashNDestIn : HashNDesc P := (selectedHash r.toRegs, c.descData)

def waitingInt : Nat := padded 0 r.descStall r.selectedCore.toNat

def descPop : Bool :=
  r.selectedPortVR && atCore r.toRegs false (descAvail r c) &&
    (!atCore r.toRegs false r.descStallV || decide (waitingInt r = r.selectedPortEncR))

/-- A core is asked for a slot. -/
def asks (m : Fin P.coreCount) : Bool :=
  r.selectedPortVR && decide (m.val = r.selectedCore.toNat)

/-- The registers after the clock edge, outside reset. -/
def next : Regs P where
  toRegs := advance r.toRegs c (descPop r c) (hashNDestIn r c)
  descStall := fun m =>
    if asks r m && !descAvail r c m && !r.descStallV m then r.selectedPortEncR
    else r.descStall m
  descStallV := fun m =>
    if asks r m && !descAvail r c m && !r.descStallV m then true
    else if asks r m && descAvail r c m && r.descStallV m &&
      decide (r.descStall m = r.selectedPortEncR) then false
    else r.descStallV m

/-- The registers after a reset; `desc_stall` has none. -/
def Start : Prop := HashSelect.Start r.toRegs ∧ ∀ m, r.descStallV m = false

end Module

/-! ## The requests a core sees -/

/-- An interface asks a core for a slot: it finds none, or is served. -/
inductive Visit
  | found (p : Nat)
  | served (p : Nat)
deriving DecidableEq

/-- The interface found waiting first since the core last served one. -/
def firstWaiting (visits : List Visit) : Option Nat :=
  visits.foldl (fun w v => match v with
    | .found p => w.or (some p)
    | .served _ => none) none

/-- Whoever is served is the one found waiting first, if anyone waits. -/
def InTurn (visits : List Visit) : Prop :=
  ∀ earlier later p, visits = earlier ++ .served p :: later →
    ∀ w, firstWaiting earlier = some w → w = p

theorem firstWaiting_found (visits : List Visit) (p : Nat) :
    firstWaiting (visits ++ [.found p]) = (firstWaiting visits).or (some p) := by
  simp [firstWaiting]

theorem firstWaiting_served (visits : List Visit) (p : Nat) :
    firstWaiting (visits ++ [.served p]) = none := by
  simp [firstWaiting]

theorem inTurn_nil : InTurn [] := by
  intro earlier later p h
  simp at h

/-- One more visit keeps the order if it is no service, or that of the first waiting. -/
theorem InTurn.append {visits : List Visit} {v : Visit} (h : InTurn visits)
    (hv : ∀ p, v = .served p → ∀ w, firstWaiting visits = some w → w = p) :
    InTurn (visits ++ [v]) := by
  intro earlier later p heq w hw
  rcases List.eq_nil_or_concat' later with rfl | ⟨later, x, rfl⟩
  · obtain ⟨rfl, hlast⟩ := List.append_inj' heq rfl
    exact hv p (List.singleton_inj.mp hlast) w hw
  · have hsplit : visits ++ [v] = (earlier ++ .served p :: later) ++ [x] := by
      rw [heq, List.append_assoc, List.cons_append]
    exact h earlier later p (List.append_inj' hsplit rfl).1 w hw

/-- The policy, with the requests each core has seen. -/
structure Bench (P : HashConfig) where
  regs : Regs P
  visits : Fin P.coreCount → List Visit

def visit (r : Regs P) (c : Cycle P) (m : Fin P.coreCount) : List Visit :=
  if asks r m then
    if descPop r c then [.served r.selectedPortEncR]
    else if !descAvail r c m then [.found r.selectedPortEncR]
    else []
  else []

namespace Bench

def start (r : Regs P) : Bench P := ⟨r, fun _ => []⟩

def clock (b : Bench P) (c : Cycle P) : Bench P where
  regs := next b.regs c
  visits := fun m => b.visits m ++ visit b.regs c m

end Bench

/-! ## A slot goes with a hash -/

/-- The head hash of an interface leaves its FIFO. -/
abbrev consumed (r : Regs P) (c : Cycle P) (p : Fin P.ifCount) : Bool :=
  consumes r.toRegs c (descPop r c) p

/-- What a cycle allocates: a slot with the head hash of one interface, from the core
of that hash, which has one to give. -/
structure Allocates (r : Regs P) (c : Cycle P) : Prop where
  popped_iff : descPop r c = true ↔ ∃ p, consumed r c p = true
  one : ∀ p q, consumed r c p = true → consumed r c q = true → p = q
  pushed : ∀ p, pushes r.toRegs c (descPop r c) (hashNDestIn r c) p = consumed r c p
  entry : ∀ p, consumed r c p = true → hashNDestIn r c = ((rxHashF r.toRegs p).hash, c.descData)
  core : ∀ p, consumed r c p = true → r.selectedCore = coreOf (rxHashF r.toRegs p).hash ∧
    ∃ m : Fin P.coreCount, m.val = r.selectedCore.toNat ∧ c.slotValids m = true ∧
      r.incomeCores m = true ∧ c.slotBusys m = false
  room : ∀ p, taken r.toRegs (descPop r c) p = true → hashNDestInReady r.toRegs p = true

/-- Whoever is written down as waiting for a core has a head hash for that core. -/
def Waits (r : Regs P) : Prop :=
  ∀ m, r.descStallV m = true → ∃ p : Fin P.ifCount, p.val = r.descStall m ∧
    rxHashValidF r.toRegs p = true ∧ (maskedHash r.toRegs p).toNat = m.val

section Step
variable {r : Regs P} {c : Cycle P} {m : Fin P.coreCount} {p : Fin P.ifCount}

theorem atCore_of_eq {x : Fin P.coreCount → Bool} {pad : Bool}
    (h : m.val = r.selectedCore.toNat) : atCore r.toRegs pad x = x m := by
  rw [atCore, ← h, padded_val]

theorem asks_iff : asks r m = true ↔
    r.selectedPortVR = true ∧ m.val = r.selectedCore.toNat := by
  simp [asks]

/-- A slot is popped for a selected interface, from a core that has one, and if
someone waits for that core it is that interface. -/
theorem descPop_spec (h : descPop r c = true) :
    ∃ m : Fin P.coreCount, asks r m = true ∧ descAvail r c m = true ∧
      (r.descStallV m = true → r.descStall m = r.selectedPortEncR) := by
  simp only [descPop, Bool.and_eq_true] at h
  obtain ⟨⟨hv, havail⟩, hturn⟩ := h
  have hlt : r.selectedCore.toNat < P.coreCount :=
    lt_of_padded_ne (by rw [show padded false (descAvail r c) _ = true from havail]; decide)
  refine ⟨⟨_, hlt⟩, asks_iff.mpr ⟨hv, rfl⟩, ?_, ?_⟩
  · rwa [atCore_of_eq (m := ⟨_, hlt⟩) rfl] at havail
  · intro hs
    rw [atCore_of_eq (m := ⟨_, hlt⟩) rfl, hs, waitingInt, padded_of_lt hlt] at hturn
    simpa using hturn

/-- A core that is asked and has a slot gives it, unless another interface waits. -/
theorem descPop_of_asks (h : asks r m = true) :
    descPop r c = (descAvail r c m &&
      (!r.descStallV m || decide (r.descStall m = r.selectedPortEncR))) := by
  obtain ⟨hv, hm⟩ := asks_iff.mp h
  rw [descPop, atCore_of_eq hm, atCore_of_eq hm, waitingInt, ← hm, padded_val, hv, Bool.true_and]

theorem allocates (h : Selected r.toRegs) : Allocates r c where
  popped_iff := by
    constructor
    · intro hpop
      obtain ⟨m, hask, -⟩ := descPop_spec hpop
      obtain ⟨p, hp⟩ := h.chosen (asks_iff.mp hask).1
      refine ⟨p, ?_⟩
      rw [consumed, h.consumes_eq, hpop]
      exact h.taken_chosen (asks_iff.mp hask).1 hp
    · rintro ⟨p, hp⟩
      rw [consumed, h.consumes_eq] at hp
      exact (Bool.and_eq_true_iff.mp hp).1
  one := fun p q hp hq => by
    rw [consumed, h.consumes_eq] at hp hq
    exact h.taken_unique hp hq
  pushed := fun p => by rw [h.pushes_eq, consumed, h.consumes_eq]
  entry := fun p hp => by
    rw [consumed, h.consumes_eq] at hp
    rw [hashNDestIn, (h.chosen_of_taken hp).selectedHash_eq]
  core := fun p hp => by
    rw [consumed, h.consumes_eq] at hp
    obtain ⟨m, hask, havail, -⟩ := descPop_spec (Bool.and_eq_true_iff.mp hp).1
    simp only [descAvail, Bool.and_eq_true, Bool.not_eq_true'] at havail
    exact ⟨(h.chosen_of_taken hp).core, m, (asks_iff.mp hask).2, havail.1.1, havail.1.2, havail.2⟩
  room := fun p hp => (h.chosen_of_taken hp).room

/-- While an interface waits for a core, no other one is given a slot of it. -/
theorem waiter_first (h : Selected r.toRegs) (hs : r.descStallV m = true)
    (hm : m.val = r.selectedCore.toNat) (hp : consumed r c p = true) :
    p.val = r.descStall m := by
  rw [consumed, h.consumes_eq] at hp
  obtain ⟨m', hask, -, hwait⟩ := descPop_spec (Bool.and_eq_true_iff.mp hp).1
  obtain rfl : m = m' := Fin.ext (hm.trans (asks_iff.mp hask).2.symm)
  rw [hwait hs]
  exact (h.chosen_of_taken hp).enc

/-! ## The waiting interfaces -/

/-- What a cycle does to the record of a core: someone is written down, no one is
waiting any more, or the one that waits keeps waiting and no slot is given. -/
theorem record_cases (r : Regs P) (c : Cycle P) (m : Fin P.coreCount) :
    (asks r m = true ∧ descAvail r c m = false ∧ r.descStallV m = false ∧
      (next r c).descStallV m = true ∧ (next r c).descStall m = r.selectedPortEncR) ∨
    ((next r c).descStallV m = false ∧
      (r.descStallV m = true → asks r m = true ∧ descPop r c = true) ∧
      (asks r m = true → descPop r c = true)) ∨
    (r.descStallV m = true ∧ (next r c).descStallV m = true ∧
      (next r c).descStall m = r.descStall m ∧ ¬(asks r m = true ∧ descPop r c = true)) := by
  by_cases hask : asks r m = true
  · have hpop := descPop_of_asks (c := c) hask
    simp only [next, hask, hpop]
    cases descAvail r c m <;> cases r.descStallV m <;>
      cases hturn : decide (r.descStall m = r.selectedPortEncR) <;> simp_all
  · simp only [next, hask]
    cases r.descStallV m <;> simp

theorem Waits.next (h : Waits r) (hsel : Selected r.toRegs) (c : Cycle P) : Waits (next r c) := by
  intro m hs
  rcases record_cases r c m with ⟨hask, havail, -, -, hstall⟩ | ⟨hnone, -⟩ | ⟨hold, -, hstall, hno⟩
  · obtain ⟨hv, hm⟩ := asks_iff.mp hask
    obtain ⟨p, hp⟩ := hsel.chosen hv
    have hpop : descPop r c = false := by rw [descPop_of_asks hask, havail, Bool.false_and]
    obtain ⟨hvalid, hdout⟩ := hsel.head_advance c (hashNDestIn r c) hp.hashValid
      (show taken r.toRegs (descPop r c) p = false by rw [hpop, taken, Bool.false_and])
    refine ⟨p, hp.enc.trans hstall.symm, hvalid, ?_⟩
    rw [hm, hp.core, maskedHash, maskedHash, ← hdout]
    rfl
  · exact absurd hs (by simp [hnone])
  · obtain ⟨p, hp, hvalid, hcore⟩ := h m hold
    -- the hash of the waiting interface names this core, so taking it would give a slot
    have hnot : taken r.toRegs (descPop r c) p = false := by
      by_contra ht
      rw [Bool.not_eq_false] at ht
      have hchosen := hsel.chosen_of_taken ht
      obtain ⟨hpop, hport⟩ := Bool.and_eq_true_iff.mp ht
      rw [hsel.oneHot] at hport
      refine hno ⟨asks_iff.mpr ⟨(Bool.and_eq_true_iff.mp hport).1, ?_⟩, hpop⟩
      rw [hchosen.core, hcore]
    obtain ⟨hvalid', hdout⟩ := hsel.head_advance c (hashNDestIn r c) hvalid hnot
    refine ⟨p, hp.trans hstall.symm, hvalid', ?_⟩
    rw [← hcore, maskedHash, maskedHash, ← hdout]
    rfl

end Step

/-! ## Whole runs -/

structure Inv (b : Bench P) : Prop where
  selected : Selected b.regs.toRegs
  waits : Waits b.regs
  inTurn : ∀ m, InTurn (b.visits m)
  first : ∀ m, firstWaiting (b.visits m) =
    if b.regs.descStallV m then some (b.regs.descStall m) else none

theorem Start.inv {r : Regs P} (h : Start r) : Inv (Bench.start r) where
  selected := h.1.selected
  waits := fun m hs => absurd hs (by simp [Bench.start, h.2])
  inTurn := fun _ => inTurn_nil
  first := fun m => by simp [Bench.start, h.2, firstWaiting]

section Visits
variable {r : Regs P} {b : Bench P} {c : Cycle P} {m : Fin P.coreCount}

theorem visit_idle (h : asks r m = false) : visit r c m = [] := by
  simp [visit, h]

theorem visit_served (h : asks r m = true) (hp : descPop r c = true) :
    visit r c m = [.served r.selectedPortEncR] := by
  simp [visit, h, hp]

theorem visit_found (h : asks r m = true) (hp : descAvail r c m = false) :
    visit r c m = [.found r.selectedPortEncR] := by
  have hpop : descPop r c = false := by rw [descPop_of_asks h, hp, Bool.false_and]
  simp [visit, h, hp, hpop]

/-- The interface found waiting first is the one the policy has written down. -/
theorem Inv.first_clock (h : Inv b) (c : Cycle P) (m : Fin P.coreCount) :
    firstWaiting ((b.clock c).visits m) =
      if (b.clock c).regs.descStallV m then some ((b.clock c).regs.descStall m) else none := by
  have hfirst := h.first m
  change firstWaiting (b.visits m ++ visit b.regs c m) =
    if (next b.regs c).descStallV m then some ((next b.regs c).descStall m) else none
  rcases record_cases b.regs c m with ⟨hask, havail, hold, hnew, hstall⟩ |
    ⟨hnew, hserved, hasked⟩ | ⟨hold, hnew, hstall, hno⟩
  · rw [visit_found hask havail, firstWaiting_found, hfirst, hold, hnew, hstall]
    rfl
  · rw [hnew]
    cases hask : asks b.regs m with
    | true => rw [visit_served hask (hasked hask), firstWaiting_served]; rfl
    | false =>
      have hold : b.regs.descStallV m = false := by
        by_contra hs
        rw [(hserved (Bool.not_eq_false _ ▸ hs)).1] at hask
        exact Bool.false_ne_true hask.symm
      rw [visit_idle hask, List.append_nil, hfirst, hold]
      rfl
  · rw [hnew, hstall]
    rw [hold] at hfirst
    cases hask : asks b.regs m with
    | false => rw [visit_idle hask, List.append_nil, hfirst]
    | true =>
      have hpop : descPop b.regs c = false := by
        by_contra hp
        exact hno ⟨hask, Bool.not_eq_false _ ▸ hp⟩
      cases havail : descAvail b.regs c m with
      | false => rw [visit_found hask havail, firstWaiting_found, hfirst]; rfl
      | true =>
        rw [show visit b.regs c m = [] by simp [visit, hask, hpop, havail], List.append_nil,
          hfirst]

/-- A visit serves the interface written down, if there is one. -/
theorem Inv.inTurn_clock (h : Inv b) (c : Cycle P) (m : Fin P.coreCount) :
    InTurn ((b.clock c).visits m) := by
  change InTurn (b.visits m ++ visit b.regs c m)
  unfold visit
  split
  · rename_i hask
    split
    · rename_i hpop
      refine (h.inTurn m).append fun p hp w hw => ?_
      obtain rfl := Visit.served.inj hp
      rw [h.first m] at hw
      split at hw
      · rename_i hs
        obtain ⟨m', hask', -, hwait⟩ := descPop_spec hpop
        obtain rfl : m = m' :=
          Fin.ext ((asks_iff.mp hask).2.trans (asks_iff.mp hask').2.symm)
        rw [← Option.some.inj hw, hwait hs]
      · exact absurd hw (by simp)
    · split
      · exact (h.inTurn m).append fun p hp => absurd hp (by simp)
      · rw [List.append_nil]
        exact h.inTurn m
  · rw [List.append_nil]
    exact h.inTurn m

theorem Inv.clock (h : Inv b) (c : Cycle P) : Inv (b.clock c) where
  selected := h.selected.advance
  waits := h.waits.next h.selected c
  inTurn := h.inTurn_clock c
  first := h.first_clock c

end Visits

/-- **Slots follow hashes.**  After any run from reset, whatever the hashes, the slots
the cores have, the slots handed to other cores and the income mask were: the next
cycle pops a slot exactly when it consumes and stores the head hash of one interface,
from the core the hash names, which has a slot, takes packets and is not busy, and the
FIFO it stores to has room.  Whoever is written down as waiting for a core has a head
hash for it, and alone is given a slot of it; so each core serves first whom it found
waiting first. -/
theorem slots_follow_hashes {r : Regs P} (h : Start r) (cycles : List (Cycle P)) (c : Cycle P) :
    let b := run Bench.clock (Bench.start r) cycles
    Allocates b.regs c ∧ Waits b.regs ∧
      (∀ m, b.regs.descStallV m = true → m.val = b.regs.selectedCore.toNat →
        ∀ p, consumed b.regs c p = true → p.val = b.regs.descStall m) ∧
      ∀ m, InTurn (b.visits m) := by
  have hinv : Inv (run Bench.clock (Bench.start r) cycles) :=
    run_preserves (P := Inv) (fun _ c h => h.clock c) h.inv cycles
  exact ⟨allocates hinv.selected, hinv.waits,
    fun _ hs hm _ hp => waiter_first hinv.selected hs hm hp, hinv.inTurn⟩

def twoPortsReset : Regs twoPorts where
  toRegs := default
  descStall := fun _ => 0
  descStallV := fun _ => false

/-- Both interfaces have a hash for core 1, which has no slot at first: interface 1 is
found waiting before interface 0, and served before it. -/
theorem slots_follow_hashes_contended :
    let cycles := [twoPortsCycle true 0 3 false false, twoPortsCycle true 1 3 true false,
      twoPortsCycle false 0 0 false false, twoPortsCycle false 0 0 false false,
      twoPortsCycle false 0 0 false false, twoPortsCycle false 0 0 false true,
      twoPortsCycle false 0 0 false true]
    let b := run Bench.clock (Bench.start twoPortsReset) cycles
    b.visits twoPortsCore = [.found 1, .found 0, .served 1, .served 0] ∧
      InTurn (b.visits twoPortsCore) :=
  ⟨by decide +kernel, (slots_follow_hashes ⟨.default, fun _ => rfl⟩ _
    (twoPortsCycle false 0 0 false false)).2.2.2 twoPortsCore⟩

end Rosebud.LbHashBlocking
