import Rosebud.AxiStream
import Rosebud.Clocked

/-! # `axis_dropper`

A gate on the handshake signals of a stream that lets packets through or takes them off the
sender.  `to_drop` may follow the `drop` input only between packets: within a packet it is the
register `dropping`, which was set to the decision on the first word (`dropping_next`).

`Sound` splits what was accepted into packets, each with its fate.
-/
namespace Rosebud
open Clocked AxiStream

/-- The parameters `REG_FOR_DROP` and `SAME_CYCLE_DROP`. -/
structure DropperMode where
  regForDrop : Bool
  sameCycleDrop : Bool

/-- The registers of `n` ports with counters of `w` bits. -/
structure AxisDropper (n w : Nat) where
  dropR : Fin n → Bool
  soP : Fin n → Bool
  dropping : Fin n → Bool
  dropCount : Fin n → BitVec w

namespace AxisDropper
variable {n w : Nat} {α : Type} (P : DropperMode) (last : α → Bool)

/-- The signals of a cycle; the words carry their `tlast`, which `last` reads off them. -/
structure Inputs (n : Nat) (α : Type) where
  rst : Bool
  drop : Fin n → Bool
  sAxisTvalid : Fin n → Bool
  sAxis : Fin n → α
  mAxisTready : Fin n → Bool

variable (s : AxisDropper n w) (i : Inputs n α) (p : Fin n)

/-- `drop_r`, a register or a wire. -/
def dropRNow : Bool := if P.regForDrop then s.dropR p else i.drop p

def sAxisTlast : Bool := last (i.sAxis p)

def toDrop : Bool :=
  if P.sameCycleDrop then
    (s.soP p && s.dropRNow P i p) || (s.dropping p && !(s.soP p && !s.dropRNow P i p))
  else s.dropping p

def mAxisTvalid : Bool := i.sAxisTvalid p && !s.toDrop P i p

def sAxisTready : Bool := i.mAxisTready p || s.toDrop P i p

def sAxisTransaction : Bool := i.sAxisTvalid p && s.sAxisTready P i p

/-- The places at which `dropping` may change. -/
def boundary : Bool :=
  (if P.sameCycleDrop then s.soP p else s.soP p && !i.sAxisTvalid p) ||
    (s.sAxisTransaction P i p && sAxisTlast last i p)

def next : AxisDropper n w :=
  if i.rst then ⟨fun _ => false, fun _ => true, fun _ => false, fun _ => 0⟩
  else
    { dropR := i.drop
      soP := fun p => if s.sAxisTransaction P i p then sAxisTlast last i p else s.soP p
      dropping := fun p =>
        if s.dropRNow P i p && !s.dropping p then s.boundary P last i p
        else if !s.dropRNow P i p && s.dropping p then !s.boundary P last i p
        else s.dropping p
      dropCount := fun p =>
        if s.sAxisTransaction P i p && sAxisTlast last i p && s.toDrop P i p then
          s.dropCount p + 1
        else s.dropCount p }

/-! ## The decision -/

variable {P last s i p}

/-- Within a packet the decision is the register. -/
theorem toDrop_of_within (h : s.soP p = false) : s.toDrop P i p = s.dropping p := by
  simp [toDrop, h]

/-- **The decision on a word that is not the last is kept for the next.** -/
theorem dropping_next (hr : i.rst = false) (ht : s.sAxisTransaction P i p = true)
    (hlast : last (i.sAxis p) = false) :
    (s.next P last i).dropping p = s.toDrop P i p := by
  have hv : i.sAxisTvalid p = true := (Bool.and_eq_true_iff.mp ht).1
  have hboundary : s.boundary P last i p = (P.sameCycleDrop && s.soP p) := by
    simp [boundary, sAxisTlast, hlast, hv]
  simp only [next, hr, Bool.false_eq_true, if_false, hboundary]
  unfold toDrop
  cases P.sameCycleDrop <;> cases s.soP p <;> cases s.dropRNow P i p <;> cases s.dropping p <;> rfl

/-- Within a packet nothing happens while no word is accepted. -/
theorem dropping_next_of_wait (hr : i.rst = false) (ht : s.sAxisTransaction P i p = false)
    (h : s.soP p = false) : (s.next P last i).dropping p = s.dropping p := by
  have hboundary : s.boundary P last i p = false := by
    simp [boundary, h, ht]
  simp only [next, hr, Bool.false_eq_true, if_false, hboundary]
  cases s.dropRNow P i p <;> cases s.dropping p <;> rfl

/-! ## Packets and their fates -/

/-- A stream split into its packets, each with whether it was let through, and the words after
the last of them with what happens to these. -/
structure Split (α : Type) where
  packets : List (List α × Bool)
  rest : List α
  restKept : Bool

/-- The words let through. -/
def Split.kept (x : Split α) : List α :=
  (x.packets.filter (·.2)).flatMap (·.1) ++ if x.restKept then x.rest else []

/-- The number of packets taken off the sender. -/
def Split.dropped (x : Split α) : Nat := x.packets.countP (!·.2)

/-- The split after one more word, which is let through or not. -/
def Split.extend (last : α → Bool) (x : Split α) (word : α) (kept : Bool) : Split α :=
  if last word then ⟨x.packets ++ [(x.rest ++ [word], kept)], [], true⟩
  else ⟨x.packets, x.rest ++ [word], kept⟩

/-- The gate with the words each port accepted and those it forwarded. -/
structure Bench (n w : Nat) (α : Type) where
  gate : AxisDropper n w
  accepted : Fin n → List α
  forwarded : Fin n → List α

def Bench.step (P : DropperMode) (last : α → Bool) (b : Bench n w α) (i : Inputs n α) :
    Bench n w α where
  gate := b.gate.next P last i
  accepted := fun p =>
    b.accepted p ++ if b.gate.sAxisTransaction P i p then [i.sAxis p] else []
  forwarded := fun p =>
    b.forwarded p ++ if b.gate.mAxisTvalid P i p && i.mAxisTready p then [i.sAxis p] else []

/-- What a port did is this split. -/
structure Bench.Sound (last : α → Bool) (b : Bench n w α) (p : Fin n) (x : Split α) : Prop where
  accepted : cut last (b.accepted p) = (x.packets.map Prod.fst, x.rest)
  forwarded : b.forwarded p = x.kept
  dropCount : b.gate.dropCount p = BitVec.ofNat w x.dropped
  soP : b.gate.soP p = x.rest.isEmpty
  dropping : x.rest ≠ [] → b.gate.dropping p = !x.restKept

variable {b : Bench n w α} {x : Split α}

/-- Words are forwarded as they are accepted, unless they are dropped. -/
theorem forwarded_iff (s : AxisDropper n w) (i : Inputs n α) (p : Fin n) :
    (s.mAxisTvalid P i p && i.mAxisTready p) =
      (s.sAxisTransaction P i p && !s.toDrop P i p) := by
  unfold mAxisTvalid sAxisTransaction sAxisTready
  cases i.sAxisTvalid p <;> cases s.toDrop P i p <;> cases i.mAxisTready p <;> rfl

theorem Split.kept_extend (x : Split α) (word : α) {kept : Bool}
    (h : x.rest ≠ [] → x.restKept = kept) :
    (x.extend last word kept).kept = x.kept ++ if kept then [word] else [] := by
  have hrest : (if kept then x.rest ++ [word] else []) =
      (if x.restKept then x.rest else []) ++ if kept then [word] else [] := by
    by_cases hnil : x.rest = []
    · rw [hnil]
      cases x.restKept <;> rfl
    · rw [h hnil]
      cases kept <;> simp
  unfold Split.extend
  cases hl : last word with
  | true =>
    simp only [if_true, Split.kept, List.filter_append, List.flatMap_append, List.append_nil,
      List.append_assoc]
    rw [← hrest]
    cases kept <;> simp
  | false =>
    simp only [Bool.false_eq_true, if_false, Split.kept, List.append_assoc]
    rw [← hrest]

theorem Split.dropped_extend (x : Split α) (word : α) (kept : Bool) :
    (x.extend last word kept).dropped = x.dropped + if last word && !kept then 1 else 0 := by
  unfold Split.extend
  cases last word with
  | true =>
    cases kept <;> simp [Split.dropped]
  | false => rfl

theorem Split.isEmpty_rest_extend (x : Split α) (word : α) (kept : Bool) :
    (x.extend last word kept).rest.isEmpty = last word := by
  unfold Split.extend
  cases last word <;> simp

/-- **An accepted word joins the packet under way, and its fate.** -/
theorem Bench.Sound.accept (h : b.Sound last p x) (hr : i.rst = false)
    (ht : b.gate.sAxisTransaction P i p = true) :
    (b.step P last i).Sound last p (x.extend last (i.sAxis p) (!b.gate.toDrop P i p)) := by
  have hfate : x.rest ≠ [] → x.restKept = !b.gate.toDrop P i p := by
    intro hne
    have hwithin : b.gate.soP p = false := by
      rw [h.soP]
      simpa using hne
    rw [toDrop_of_within hwithin, h.dropping hne, Bool.not_not]
  constructor
  · change cut last (b.accepted p ++ if b.gate.sAxisTransaction P i p then _ else []) = _
    rw [ht, if_pos rfl, cut_append_singleton, h.accepted]
    unfold Split.extend
    split <;> simp
  · change b.forwarded p ++ (if b.gate.mAxisTvalid P i p && i.mAxisTready p then _ else []) = _
    rw [forwarded_iff, ht, Bool.true_and, Split.kept_extend x _ hfate, h.forwarded]
  · have hcount : (b.step P last i).gate.dropCount p =
        if last (i.sAxis p) && b.gate.toDrop P i p then b.gate.dropCount p + 1
        else b.gate.dropCount p := by
      change (b.gate.next P last i).dropCount p = _
      simp only [next, hr, Bool.false_eq_true, if_false, ht, Bool.true_and]
      rfl
    rw [hcount, Split.dropped_extend, Bool.not_not, h.dropCount, BitVec.ofNat_add]
    split
    · rfl
    · rw [BitVec.add_zero]
  · rw [Split.isEmpty_rest_extend]
    change (b.gate.next P last i).soP p = _
    simp only [next, hr, Bool.false_eq_true, if_false, ht, if_true]
    rfl
  · intro hne
    have hempty : (x.extend last (i.sAxis p) (!b.gate.toDrop P i p)).rest.isEmpty = false := by
      simpa using hne
    have hl : last (i.sAxis p) = false := by rwa [Split.isEmpty_rest_extend] at hempty
    have hkept : (x.extend last (i.sAxis p) (!b.gate.toDrop P i p)).restKept =
        !b.gate.toDrop P i p := by
      rw [Split.extend, hl]
      rfl
    rw [hkept, Bool.not_not]
    exact dropping_next hr ht hl

/-- A cycle without an accepted word changes nothing for the packet under way. -/
theorem Bench.Sound.wait (h : b.Sound last p x) (hr : i.rst = false)
    (ht : b.gate.sAxisTransaction P i p = false) : (b.step P last i).Sound last p x := by
  constructor
  · change cut last (b.accepted p ++ if b.gate.sAxisTransaction P i p then _ else []) = _
    rw [ht, if_neg Bool.false_ne_true, List.append_nil, h.accepted]
  · change b.forwarded p ++ (if b.gate.mAxisTvalid P i p && i.mAxisTready p then _ else []) = _
    rw [forwarded_iff, ht, Bool.false_and, if_neg Bool.false_ne_true, List.append_nil, h.forwarded]
  · rw [← h.dropCount]
    change (b.gate.next P last i).dropCount p = _
    simp [next, hr, ht]
  · rw [← h.soP]
    change (b.gate.next P last i).soP p = _
    simp [next, hr, ht]
  · intro hne
    have hwithin : b.gate.soP p = false := by
      rw [h.soP]
      simpa using hne
    rw [← h.dropping hne]
    exact dropping_next_of_wait hr ht hwithin

theorem Bench.Sound.step (h : ∃ x, b.Sound last p x) (hr : i.rst = false) :
    ∃ x, (b.step P last i).Sound last p x := by
  obtain ⟨x, hx⟩ := h
  cases ht : b.gate.sAxisTransaction P i p with
  | true => exact ⟨_, hx.accept hr ht⟩
  | false => exact ⟨x, hx.wait hr ht⟩

/-- The gate after a cycle of reset, nothing accepted yet. -/
def Bench.start (s : AxisDropper n w) : Bench n w α := ⟨s, fun _ => [], fun _ => []⟩

theorem sound_of_reset (s : AxisDropper n w) (hr : i.rst = true) :
    (Bench.start (s.next P last i) : Bench n w α).Sound last p ⟨[], [], true⟩ := by
  constructor
  · rfl
  · rfl
  · simp [Bench.start, next, hr, Split.dropped]
  · simp [Bench.start, next, hr]
  · exact fun h => absurd rfl h

/-! ## Without drops -/

/-- Nothing is dropped, and nothing is about to be. -/
structure Bench.Open (b : Bench n w α) (p : Fin n) : Prop where
  dropR : b.gate.dropR p = false
  dropping : b.gate.dropping p = false
  forwarded : b.forwarded p = b.accepted p

theorem Bench.Open.step (h : b.Open p) (hr : i.rst = false)
    (hdrop : i.drop p = false) : (b.step P last i).Open p := by
  have hnow : b.gate.dropRNow P i p = false := by
    rw [dropRNow, h.dropR, hdrop]
    split <;> rfl
  have hgo : b.gate.toDrop P i p = false := by
    rw [toDrop, hnow, h.dropping]
    split <;> simp
  refine ⟨?_, ?_, ?_⟩
  · change (b.gate.next P last i).dropR p = false
    simp [next, hr, hdrop]
  · change (b.gate.next P last i).dropping p = false
    simp [next, hr, hnow, h.dropping]
  · change b.forwarded p ++ (if b.gate.mAxisTvalid P i p && i.mAxisTready p then _ else []) =
      b.accepted p ++ if b.gate.sAxisTransaction P i p then _ else []
    rw [forwarded_iff, hgo, Bool.not_false, Bool.and_true, h.forwarded]

theorem open_of_reset (s : AxisDropper n w) (hr : i.rst = true) :
    (Bench.start (s.next P last i) : Bench n w α).Open p := by
  refine ⟨?_, ?_, rfl⟩ <;> simp [Bench.start, next, hr]

/-- **Packets are dropped as a whole or not at all.**  In both modes, with the `drop` input
registered or not, after a reset and whatever the inputs are, each port has split what it
accepted into packets of which it forwarded some as they are and the others not; the counter is
the number of the others, modulo its range.  While `drop` is low every word is forwarded. -/
theorem drops_whole_packets (P : DropperMode) (last : α → Bool) (s : AxisDropper n w)
    {i₀ : Inputs n α} (hreset : i₀.rst = true) {cycles : List (Inputs n α)}
    (hrun : ∀ i ∈ cycles, i.rst = false) (p : Fin n) :
    let b := run (Bench.step P last) (Bench.start (s.next P last i₀)) cycles
    (∃ x : Split α, cut last (b.accepted p) = (x.packets.map Prod.fst, x.rest) ∧
      b.forwarded p = x.kept ∧ (b.gate.dropCount p).toNat = x.dropped % 2 ^ w) ∧
    ((∀ i ∈ cycles, i.drop p = false) → b.forwarded p = b.accepted p) := by
  intro b
  refine ⟨?_, ?_⟩
  · have hsound : ∃ x, b.Sound last p x :=
      run_invariant (P := fun c : Bench n w α => ∃ x, c.Sound last p x)
        (fun _ _ h hr => Bench.Sound.step h hr) ⟨_, sound_of_reset s hreset⟩
        (meets_of_mem hrun _)
    obtain ⟨x, hx⟩ := hsound
    refine ⟨x, hx.accepted, hx.forwarded, ?_⟩
    rw [hx.dropCount, BitVec.toNat_ofNat]
  · intro hdrop
    have hopen : b.Open p :=
      run_invariant (P := fun c : Bench n w α => c.Open p) (fun _ _ h hc => h.step hc.1 hc.2)
        (open_of_reset s hreset) ((meets_of_mem hrun _).and (meets_of_mem hdrop _))
    exact hopen.forwarded

/-- Two packets of two words; `drop` rises with the second word of the first and falls with the
second word of the second, and the first word waits for a cycle. -/
def sampleCycles : List (Inputs 1 (BitVec 8 × Bool)) :=
  [⟨false, fun _ => false, fun _ => true, fun _ => (1, false), fun _ => false⟩,
    ⟨false, fun _ => false, fun _ => true, fun _ => (1, false), fun _ => true⟩,
    ⟨false, fun _ => true, fun _ => true, fun _ => (2, true), fun _ => true⟩,
    ⟨false, fun _ => true, fun _ => true, fun _ => (3, false), fun _ => false⟩,
    ⟨false, fun _ => false, fun _ => true, fun _ => (4, true), fun _ => false⟩]

def sampleReset : Inputs 1 (BitVec 8 × Bool) :=
  ⟨true, fun _ => true, fun _ => true, fun _ => (9, true), fun _ => true⟩

def sampleRegs : AxisDropper 1 4 := ⟨fun _ => true, fun _ => false, fun _ => true, fun _ => 5⟩

theorem drops_whole_packets_second :
    let b := run (Bench.step ⟨false, true⟩ Prod.snd)
      (Bench.start (sampleRegs.next ⟨false, true⟩ Prod.snd sampleReset)) sampleCycles
    b.forwarded 0 = [(1, false), (2, true)] ∧
      ∃ x : Split (BitVec 8 × Bool),
        cut Prod.snd (b.accepted 0) = (x.packets.map Prod.fst, x.rest) ∧
        b.forwarded 0 = x.kept ∧ (b.gate.dropCount 0).toNat = x.dropped % 2 ^ 4 :=
  ⟨by decide +kernel,
    (drops_whole_packets ⟨false, true⟩ Prod.snd sampleRegs rfl (by simp [sampleCycles]) 0).1⟩

end AxisDropper

end Rosebud
