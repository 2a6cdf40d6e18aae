import Rosebud.HashSelect

/-! # `lb_hash_dropping`

The hash policy that does not wait for ever.  A hash whose core has no usable slot is
taken all the same once its interface is almost full: its entry then has the drop bit
set, no slot is popped, and `drop_count` of the interface goes up.  A core that hands a
slot to another core in the same cycle is neither: the hash stays where it is.

The slot, the hash, the drop bit and the counter are driven from four places.
`drops_accounted` is that they agree, in every cycle of every run.
-/
namespace Rosebud.LbHashDropping
open Clocked HashSelect

variable {P : HashConfig}

/-- An entry of `rx_hash_n_desc_fifo`: the drop bit, the hash and the descriptor. -/
abbrev DropNDesc (P : HashConfig) : Type := Bool × BitVec 32 × IdTag P

structure Regs (P : HashConfig) extends HashSelect.Regs P (DropNDesc P) where
  dropLimit : BitVec P.rxLinesWidth
  sAxisAlmostFull : Fin P.ifCount → Bool
  dropCount : Fin P.ifCount → BitVec 32

/-! ## The circuit -/

section Module
variable (r : Regs P) (c : Cycle P)

def descAvail (m : Fin P.coreCount) : Bool := c.slotValids m && r.incomeCores m

/-- `desc_avail[selected_core]`. -/
def selectedAvail : Bool := atCore r.toRegs false (descAvail r c)

/-- An interface is selected, and its core is not handing a slot to another core. -/
def settling : Bool := r.selectedPortVR && !atCore r.toRegs true c.slotBusys

/-- `s_axis_almost_full[selected_port_enc_r]`. -/
def selectedAlmostFull : Bool := padded false r.sAxisAlmostFull r.selectedPortEncR

def hashNDestIn : DropNDesc P := (!selectedAvail r c, selectedHash r.toRegs, c.descData)

def descPop : Bool := settling r c && selectedAvail r c

/-- The two branches that drive `rx_hash_ready_f` and `hash_n_dest_in_v`. -/
def take : Bool :=
  if settling r c then (if selectedAvail r c then true else selectedAlmostFull r) else false

/-- The value `drop_limit` is reset to. -/
def dropLimitReset (w : Nat) : BitVec w :=
  if 4 < w then BitVec.ofNat w (7 * 2 ^ (w - 4)) else BitVec.ofNat w (2 ^ (w - 1))

/-- The registers after the clock edge, outside reset. -/
def next : Regs P where
  toRegs := advance r.toRegs c (take r c) (hashNDestIn r c)
  dropLimit :=
    if hostWrites c true 3 then c.hostCmdWrData.setWidth P.rxLinesWidth else r.dropLimit
  sAxisAlmostFull := fun p => decide (r.dropLimit ≤ c.sAxisLineCount p)
  dropCount := fun p =>
    if settling r c && !selectedAvail r c && selectedAlmostFull r &&
      decide (p.val = r.selectedPortEncR) then r.dropCount p + 1
    else r.dropCount p

/-- The registers after a reset. -/
structure Start : Prop where
  front : HashSelect.Start r.toRegs
  dropLimit : r.dropLimit = dropLimitReset P.rxLinesWidth
  sAxisAlmostFull : ∀ p, r.sAxisAlmostFull p = false
  dropCount : ∀ p, r.dropCount p = 0

end Module

/-- The policy, with the entries stored for each interface. -/
structure Bench (P : HashConfig) where
  regs : Regs P
  entries : Fin P.ifCount → List (DropNDesc P)

/-- The head hash of an interface leaves its FIFO. -/
abbrev consumed (r : Regs P) (c : Cycle P) (p : Fin P.ifCount) : Bool :=
  consumes r.toRegs c (take r c) p

/-- An entry of an interface is stored. -/
abbrev pushed (r : Regs P) (c : Cycle P) (p : Fin P.ifCount) : Bool :=
  pushes r.toRegs c (take r c) (hashNDestIn r c) p

namespace Bench

def start (r : Regs P) : Bench P := ⟨r, fun _ => []⟩

def clock (b : Bench P) (c : Cycle P) : Bench P where
  regs := next b.regs c
  entries := fun p =>
    b.entries p ++ if pushed b.regs c p then [hashNDestIn b.regs c] else []

/-- The drop entries stored for an interface. -/
def drops (b : Bench P) (p : Fin P.ifCount) : Nat := (b.entries p).countP fun e => e.1

end Bench

/-! ## One cycle -/

/-- What becomes of the hash at the head of an interface. -/
structure Settles (r : Regs P) (c : Cycle P) : Prop where
  pushed : ∀ p, pushed r c p = consumed r c p
  entry : ∀ p, consumed r c p = true →
    (hashNDestIn r c).2 = ((rxHashF r.toRegs p).hash, c.descData)
  forward_iff : ∀ p, consumed r c p = true →
    ((hashNDestIn r c).1 = false ↔ descPop r c = true)
  popped : descPop r c = true → ∃ p, consumed r c p = true ∧
    r.selectedCore = coreOf (rxHashF r.toRegs p).hash ∧
    ∃ m : Fin P.coreCount, m.val = r.selectedCore.toNat ∧ c.slotValids m = true ∧
      r.incomeCores m = true ∧ c.slotBusys m = false
  dropped : ∀ p, consumed r c p = true → (hashNDestIn r c).1 = true →
    r.sAxisAlmostFull p = true ∧ ∃ m : Fin P.coreCount,
      m.val = (coreOf (P := P) (rxHashF r.toRegs p).hash).toNat ∧
      (c.slotValids m && r.incomeCores m) = false
  room : ∀ p, taken r.toRegs (take r c) p = true → hashNDestInReady r.toRegs p = true

section Step
variable {r : Regs P} {c : Cycle P} {p : Fin P.ifCount}

/-- A hash is settled only with a core that exists and is not busy. -/
theorem settling_spec (h : settling r c = true) :
    r.selectedPortVR = true ∧ ∃ m : Fin P.coreCount, m.val = r.selectedCore.toNat ∧
      c.slotBusys m = false ∧ selectedAvail r c = descAvail r c m := by
  obtain ⟨hv, hbusy⟩ := Bool.and_eq_true_iff.mp h
  have hbusy : atCore r.toRegs true c.slotBusys = false := (Bool.not_eq_true' _).mp hbusy
  have hlt : r.selectedCore.toNat < P.coreCount :=
    lt_of_padded_ne (by rw [show padded true c.slotBusys _ = false from hbusy]; decide)
  rw [atCore, padded_of_lt hlt] at hbusy
  exact ⟨hv, ⟨_, hlt⟩, rfl, hbusy, padded_of_lt hlt⟩

/-- A hash is taken with a slot, or with none from an almost full interface. -/
theorem take_cases (h : take r c = true) : settling r c = true ∧
    (selectedAvail r c = true ∨ selectedAvail r c = false ∧ selectedAlmostFull r = true) := by
  unfold take at h
  split at h
  · rename_i hs
    split at h
    · exact ⟨hs, .inl ‹_›⟩
    · rename_i ha
      exact ⟨hs, .inr ⟨Bool.eq_false_iff.mpr ha, h⟩⟩
  · exact absurd h Bool.false_ne_true

theorem take_of_descPop (h : descPop r c = true) : take r c = true := by
  obtain ⟨hs, ha⟩ := Bool.and_eq_true_iff.mp h
  simp [take, hs, ha]

theorem descPop_eq_of_take (h : take r c = true) : descPop r c = selectedAvail r c := by
  rw [descPop, (take_cases h).1, Bool.true_and]

theorem settles (h : Selected r.toRegs) : Settles r c where
  pushed := fun p => by rw [pushed, h.pushes_eq, consumed, h.consumes_eq]
  entry := fun p hp => by
    rw [consumed, h.consumes_eq] at hp
    rw [hashNDestIn, (h.chosen_of_taken hp).selectedHash_eq]
  forward_iff := fun p hp => by
    rw [consumed, h.consumes_eq] at hp
    rw [descPop_eq_of_take (Bool.and_eq_true_iff.mp hp).1, hashNDestIn]
    exact iff_of_eq (Bool.not_eq_false' _)
  popped := fun hpop => by
    obtain ⟨hs, ha⟩ := Bool.and_eq_true_iff.mp hpop
    obtain ⟨hv, m, hm, hbusy, havail⟩ := settling_spec hs
    obtain ⟨p, hp⟩ := h.chosen hv
    rw [ha] at havail
    obtain ⟨hslot, hincome⟩ := Bool.and_eq_true_iff.mp havail.symm
    refine ⟨p, ?_, hp.core, m, hm, hslot, hincome, hbusy⟩
    rw [consumed, h.consumes_eq, take_of_descPop hpop]
    exact h.taken_chosen hv hp
  dropped := fun p hp hdrop => by
    rw [consumed, h.consumes_eq] at hp
    have hchosen := h.chosen_of_taken hp
    obtain ⟨hs, hcase⟩ := take_cases (Bool.and_eq_true_iff.mp hp).1
    have ha : selectedAvail r c = false := (Bool.not_eq_true' _).mp hdrop
    obtain ⟨-, hfull⟩ := hcase.resolve_left (by rw [ha]; exact Bool.false_ne_true)
    obtain ⟨-, m, hm, -, havail⟩ := settling_spec hs
    rw [selectedAlmostFull, ← hchosen.enc, padded_val] at hfull
    refine ⟨hfull, m, ?_, havail.symm.trans ha⟩
    rw [hm, hchosen.core, maskedHash]
  room := fun p hp => (h.chosen_of_taken hp).room

/-- The counter goes up when a drop entry is stored. -/
theorem dropCount_next (h : Selected r.toRegs) (p : Fin P.ifCount) :
    (next r c).dropCount p =
      if pushed r c p && (hashNDestIn r c).1 then r.dropCount p + 1 else r.dropCount p := by
  have hsame : (settling r c && !selectedAvail r c && selectedAlmostFull r &&
      decide (p.val = r.selectedPortEncR)) = (pushed r c p && (hashNDestIn r c).1) := by
    rw [pushed, h.pushes_eq, taken, h.oneHot, take, hashNDestIn]
    cases hs : settling r c with
    | false => simp
    | true =>
      rw [(settling_spec hs).1]
      cases selectedAvail r c <;> cases selectedAlmostFull r <;> simp
  change (if _ then _ else _ : BitVec 32) = _
  rw [hsame]

end Step

/-! ## Whole runs -/

structure Inv (b : Bench P) : Prop where
  selected : Selected b.regs.toRegs
  counted : ∀ p, b.regs.dropCount p = BitVec.ofNat 32 (b.drops p)

theorem Start.inv {r : Regs P} (h : Start r) : Inv (Bench.start r) where
  selected := h.front.selected
  counted := fun p => h.dropCount p

theorem Inv.clock {b : Bench P} (h : Inv b) (c : Cycle P) : Inv (b.clock c) where
  selected := h.selected.advance
  counted := fun p => by
    change (next b.regs c).dropCount p = _
    rw [dropCount_next h.selected, h.counted p, Bench.drops, Bench.drops, Bench.clock,
      List.countP_append, BitVec.ofNat_add]
    cases pushed b.regs c p <;> cases hd : (hashNDestIn b.regs c).1 <;> simp [hd]

/-- **Drops are accounted for.**  After any run from reset, whatever the hashes, the
slots, the income mask and the fill levels were: in the next cycle the head hash of an
interface is consumed exactly when an entry is stored for it, with that hash.  The entry
is a forward entry exactly when a slot is popped, a valid one of the core the hash
names; it is a drop entry only if that core has no usable slot and the interface is
almost full.  The FIFO it is stored in has room, and `drop_count` is the number of drop
entries stored so far, modulo `2 ^ 32`. -/
theorem drops_accounted {r : Regs P} (h : Start r) (cycles : List (Cycle P)) (c : Cycle P) :
    let b := run Bench.clock (Bench.start r) cycles
    Settles b.regs c ∧ ∀ p, b.regs.dropCount p = BitVec.ofNat 32 (b.drops p) := by
  have hinv : Inv (run Bench.clock (Bench.start r) cycles) :=
    run_preserves (P := Inv) (fun _ c h => h.clock c) h.inv cycles
  exact ⟨settles hinv.selected, hinv.counted⟩

def twoPortsReset : Regs twoPorts where
  toRegs := default
  dropLimit := dropLimitReset 5
  sAxisAlmostFull := fun _ => false
  dropCount := fun _ => 0

/-- Two almost full interfaces with a hash for core 1 each: the core has no slot for
interface 1, whose packet is dropped, and one for interface 0. -/
theorem drops_accounted_two :
    let cycles := [twoPortsCycle true 0 3 false false, twoPortsCycle true 1 3 true false,
      twoPortsCycle false 0 0 false false, twoPortsCycle false 0 0 false false,
      twoPortsCycle false 0 0 false true]
    let b := run Bench.clock (Bench.start twoPortsReset) cycles
    b.entries ⟨1, by decide⟩ = [(true, 3, 5)] ∧ b.entries ⟨0, by decide⟩ = [(false, 1, 5)] ∧
      b.regs.dropCount ⟨1, by decide⟩ = BitVec.ofNat 32 (b.drops ⟨1, by decide⟩) :=
  ⟨by decide +kernel, by decide +kernel,
    (drops_accounted (r := twoPortsReset) ⟨.default, rfl, fun _ => rfl,
      fun _ => rfl⟩ _ (twoPortsCycle false 0 0 false false)).2 _⟩

end Rosebud.LbHashDropping
