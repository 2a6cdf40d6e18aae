import Rosebud.Clocked
import Rosebud.Selectors

/-! # `axis_slr_register`

A register slice for long wires.  The destination side has a FIFO without a ready signal; it says
two cycles ahead whether it has room (`sll_ready`, twice registered on the source side), and words
take two cycles to reach it.

A ready that is on its way, and a word that is on its way, is a place of the FIFO given away.  The
FIFO gives a place away for every word that leaves it, and while it is empty: so the places given
away and the words held are never more than six (`Flows.room`), and no word comes to a full FIFO.
-/
namespace Rosebud
open Clocked

/-! ## `simple_axis_srl_fifo` -/

structure SrlFifo (depth : Nat) (α : Type) where
  dataReg : Nat → α
  ptrReg : BitVec (clog2 (depth + 1))
  emptyReg : Bool

namespace SrlFifo
variable {depth : Nat} {α : Type}

structure Inputs (α : Type) where
  rst : Bool
  dinValid : Bool
  din : α
  doutReady : Bool

def doutValid (s : SrlFifo depth α) : Bool := !s.emptyReg

def dout (s : SrlFifo depth α) : α := s.dataReg (s.ptrReg.toNat - 1)

def count (s : SrlFifo depth α) : BitVec (clog2 (depth + 1)) := s.ptrReg

/-- The registers shifted by one place. -/
def shifted (s : SrlFifo depth α) (din : α) (k : Nat) : α :=
  if k = 0 then din else if k < depth then s.dataReg (k - 1) else s.dataReg k

def next (s : SrlFifo depth α) (i : Inputs α) : SrlFifo depth α :=
  let s' : SrlFifo depth α :=
    if i.doutReady && i.dinValid then
      { dataReg := s.shifted i.din
        ptrReg := if s.ptrReg = 0 then s.ptrReg + 1 else s.ptrReg
        emptyReg := false }
    else if i.doutReady && s.doutValid then
      { s with ptrReg := s.ptrReg - 1, emptyReg := decide (s.ptrReg = 1) }
    else if i.dinValid then
      { dataReg := s.shifted i.din, ptrReg := s.ptrReg + 1, emptyReg := false }
    else s
  if i.rst then { s' with ptrReg := 0, emptyReg := true } else s'

/-- The words held, the oldest first. -/
def contents (s : SrlFifo depth α) : List α :=
  ((List.range s.ptrReg.toNat).map s.dataReg).reverse

/-- The flag and the pointer agree. -/
structure Valid (s : SrlFifo depth α) : Prop where
  emptyReg : s.emptyReg = decide (s.ptrReg.toNat = 0)
  le : s.ptrReg.toNat ≤ depth

variable {s : SrlFifo depth α} {i : Inputs α}

theorem length_contents (s : SrlFifo depth α) : s.contents.length = s.count.toNat := by
  simp [contents, count]

theorem contents_of_succ {q : Nat} (h : s.ptrReg.toNat = q + 1) :
    s.contents = s.dout :: ((List.range q).map s.dataReg).reverse := by
  rw [contents, dout, h, List.range_succ, List.map_append, List.reverse_append]
  rfl

theorem exists_of_doutValid (hs : s.Valid) (h : s.doutValid = true) :
    ∃ q, s.ptrReg.toNat = q + 1 := by
  rw [doutValid, hs.emptyReg] at h
  exact Nat.exists_eq_succ_of_ne_zero (by simpa using h)

theorem contents_of_not_doutValid (hs : s.Valid) (h : s.doutValid = false) : s.contents = [] := by
  have hzero : s.ptrReg.toNat = 0 := by
    rw [doutValid, hs.emptyReg] at h
    simpa using h
  rw [contents, hzero]
  rfl

/-- The registers after a shift: the word taken in is the last of all. -/
theorem map_shifted (s : SrlFifo depth α) (x : α) {p : Nat} (hp : p < depth) :
    ((List.range (p + 1)).map (s.shifted x)).reverse =
      ((List.range p).map s.dataReg).reverse ++ [x] := by
  rw [List.range_succ_eq_map, List.map_cons, List.reverse_cons, List.map_map]
  congr 2
  refine List.map_congr_left fun k hk => ?_
  have hlt : k + 1 < depth := by
    have := List.mem_range.mp hk
    omega
  simp [shifted, hlt]

/-! ### The pointer -/

theorem lt_two_pow (depth : Nat) : depth < 2 ^ clog2 (depth + 1) :=
  Nat.lt_of_succ_le (le_two_pow_clog2 (depth + 1))

theorem toNat_one (hdepth : 0 < depth) : (1 : BitVec (clog2 (depth + 1))).toNat = 1 :=
  BitVec.toNat_one (clog2_pos (Nat.succ_lt_succ hdepth))

theorem toNat_inc {ptr : BitVec (clog2 (depth + 1))} (h : ptr.toNat < depth) :
    (ptr + 1).toNat = ptr.toNat + 1 := by
  have hlt := lt_two_pow depth
  rw [BitVec.toNat_add, toNat_one (Nat.zero_lt_of_lt h), Nat.mod_eq_of_lt (by omega)]

theorem toNat_dec {ptr : BitVec (clog2 (depth + 1))} {q : Nat} (hdepth : 0 < depth)
    (h : ptr.toNat = q + 1) : (ptr - 1).toNat = q := by
  have hsum : 2 ^ clog2 (depth + 1) - 1 + (q + 1) = 2 ^ clog2 (depth + 1) + q := by omega
  rw [BitVec.toNat_sub, toNat_one hdepth, h, hsum, Nat.add_mod_left, Nat.mod_eq_of_lt (by omega)]

/-! ### One cycle -/

theorem next_of_both {q : Nat} (hs : s.Valid) (hr : i.rst = false) (hready : i.doutReady = true)
    (hdin : i.dinValid = true) (hq : s.ptrReg.toNat = q + 1) :
    (s.next i).Valid ∧
      (s.next i).contents = ((List.range q).map s.dataReg).reverse ++ [i.din] := by
  have hne : s.ptrReg ≠ 0#_ := by
    intro hzero
    rw [hzero] at hq
    exact absurd hq.symm (Nat.succ_ne_zero q)
  have hnext : s.next i = ⟨s.shifted i.din, s.ptrReg, false⟩ := by
    simp [next, hr, hready, hdin, hne]
  have hle := hs.le
  rw [hnext]
  refine ⟨⟨?_, hle⟩, ?_⟩
  · rw [hq]
    rfl
  · rw [← map_shifted s i.din (by omega), ← hq]
    rfl

theorem next_of_out {q : Nat} (hs : s.Valid) (hr : i.rst = false) (hready : i.doutReady = true)
    (hdin : i.dinValid = false) (hq : s.ptrReg.toNat = q + 1) :
    (s.next i).Valid ∧ (s.next i).contents = ((List.range q).map s.dataReg).reverse := by
  have hvalid : s.doutValid = true := by
    rw [doutValid, hs.emptyReg, hq]
    rfl
  have hnext : s.next i = ⟨s.dataReg, s.ptrReg - 1, decide (s.ptrReg = 1)⟩ := by
    simp [next, hr, hready, hdin, hvalid]
  have hle := hs.le
  have hone : (1 : BitVec (clog2 (depth + 1))).toNat = 1 := toNat_one (by omega)
  have hdec := toNat_dec (by omega) hq
  rw [hnext]
  refine ⟨⟨?_, ?_⟩, ?_⟩
  · rw [decide_eq_decide, hdec]
    constructor
    · intro heq
      rw [heq, hone] at hq
      omega
    · intro hzero
      apply BitVec.eq_of_toNat_eq
      omega
  · rw [hdec]
    omega
  · rw [contents, hdec]

theorem next_of_in (hr : i.rst = false) (hready : i.doutReady = false)
    (hdin : i.dinValid = true) (hroom : s.count.toNat < depth) :
    (s.next i).Valid ∧ (s.next i).contents = s.contents ++ [i.din] := by
  have hnext : s.next i = ⟨s.shifted i.din, s.ptrReg + 1, false⟩ := by
    simp [next, hr, hready, hdin]
  have hinc : (s.ptrReg + 1).toNat = s.ptrReg.toNat + 1 := toNat_inc hroom
  rw [hnext]
  refine ⟨⟨?_, ?_⟩, ?_⟩
  · rw [hinc]
    rfl
  · rw [hinc]
    exact hroom
  · rw [contents, hinc]
    exact map_shifted s i.din hroom

/-- **One cycle without reset.**  A word that is shown leaves if it is wanted, and a word that
comes is kept, provided the FIFO is not full. -/
theorem next_spec (hs : s.Valid) (hr : i.rst = false)
    (hready : i.doutReady = true → s.doutValid = true)
    (hroom : i.dinValid = true → s.count.toNat < depth) :
    (s.next i).Valid ∧
      (s.next i).contents =
        s.contents.drop i.doutReady.toNat ++ if i.dinValid then [i.din] else [] := by
  cases ho : i.doutReady with
  | true =>
    obtain ⟨q, hq⟩ := exists_of_doutValid hs (hready ho)
    rw [contents_of_succ hq]
    cases hd : i.dinValid with
    | true => exact next_of_both hs hr ho hd hq
    | false =>
      obtain ⟨hvalid, hcontents⟩ := next_of_out hs hr ho hd hq
      exact ⟨hvalid, hcontents.trans (List.append_nil _).symm⟩
  | false =>
    cases hd : i.dinValid with
    | true => exact next_of_in hr ho hd (hroom hd)
    | false =>
      have hnext : s.next i = s := by simp [next, hr, ho, hd]
      rw [hnext]
      exact ⟨hs, (List.append_nil _).symm⟩

theorem next_of_reset (s : SrlFifo depth α) (hr : i.rst = true) :
    (s.next i).Valid ∧ (s.next i).contents = [] := by
  have hnext : (s.next i).ptrReg = 0 ∧ (s.next i).emptyReg = true := by
    simp [next, hr]
  refine ⟨⟨?_, ?_⟩, ?_⟩
  · rw [hnext.1, hnext.2]
    rfl
  · rw [hnext.1]
    exact Nat.zero_le _
  · rw [contents, hnext.1]
    rfl

end SrlFifo

/-! ## The two sides -/

/-- `axis_slr_register_source` -/
structure SlrSource (α : Type) where
  sllValid : Bool
  sllData : α
  sllReady : Bool
  sllReadyR : Bool

/-- `axis_slr_register_dest` -/
structure SlrDest (depth : Nat) (α : Type) where
  sllValid : Bool
  sllData : α
  sllReady : Bool
  srlFifo : SrlFifo depth α

structure SlrRegister (depth : Nat) (α : Type) where
  slrSource : SlrSource α
  slrDest : SlrDest depth α

namespace SlrRegister
variable {depth : Nat} {α : Type}

/-- The inputs; `sAxis` stands for the signals of a word put together. -/
structure Inputs (α : Type) where
  rst : Bool
  sAxisTvalid : Bool
  sAxis : α
  mAxisTready : Bool

def sAxisTready (s : SlrRegister depth α) : Bool := s.slrSource.sllReadyR

def mAxisTvalid (s : SlrRegister depth α) : Bool := s.slrDest.srlFifo.doutValid

def mAxis (s : SlrRegister depth α) : α := s.slrDest.srlFifo.dout

def next (s : SlrRegister depth α) (i : Inputs α) : SlrRegister depth α where
  slrSource :=
    { sllData := i.sAxis
      sllValid := i.sAxisTvalid && s.slrSource.sllReadyR
      sllReady := s.slrDest.sllReady
      sllReadyR := !i.rst && s.slrSource.sllReady }
  slrDest :=
    { sllReady := i.mAxisTready || !s.mAxisTvalid
      sllData := s.slrSource.sllData
      sllValid := s.slrSource.sllValid
      srlFifo := s.slrDest.srlFifo.next
        ⟨i.rst, s.slrDest.sllValid, s.slrDest.sllData, i.mAxisTready && s.mAxisTvalid⟩ }

/-- The words on their way to the FIFO. -/
def underway (s : SlrRegister depth α) : List α :=
  (if s.slrDest.sllValid then [s.slrDest.sllData] else []) ++
    if s.slrSource.sllValid then [s.slrSource.sllData] else []

/-- All words held, the oldest first. -/
def held (s : SlrRegister depth α) : List α := s.slrDest.srlFifo.contents ++ s.underway

/-- The places of the FIFO that are given away. -/
def given (s : SlrRegister depth α) : Nat :=
  s.slrDest.sllReady.toNat + s.slrSource.sllReady.toNat + s.slrSource.sllReadyR.toNat +
    s.slrSource.sllValid.toNat + s.slrDest.sllValid.toNat

/-- The register with the words it accepted and sent. -/
structure Bench (depth : Nat) (α : Type) where
  reg : SlrRegister depth α
  accepted : List α
  sent : List α

def Bench.step (b : Bench depth α) (i : Inputs α) : Bench depth α where
  reg := b.reg.next i
  accepted := b.accepted ++ if i.sAxisTvalid && b.reg.sAxisTready then [i.sAxis] else []
  sent := b.sent ++ if i.mAxisTready && b.reg.mAxisTvalid then [b.reg.mAxis] else []

/-- The invariant. -/
structure Bench.Flows (b : Bench depth α) : Prop where
  valid : b.reg.slrDest.srlFifo.Valid
  room : b.reg.slrDest.srlFifo.contents.length + b.reg.given ≤ 6
  conserved : b.sent ++ b.reg.held = b.accepted

section Step
variable {s : SlrRegister depth α} {i : Inputs α}

/-- What the FIFO does in a cycle, if there is room for the word that comes. -/
theorem srlFifo_next (hs : s.slrDest.srlFifo.Valid) (hr : i.rst = false)
    (hroom : s.slrDest.sllValid = true → s.slrDest.srlFifo.contents.length < depth) :
    (s.next i).slrDest.srlFifo.Valid ∧
      (s.next i).slrDest.srlFifo.contents =
        s.slrDest.srlFifo.contents.drop (i.mAxisTready && s.mAxisTvalid).toNat ++
          if s.slrDest.sllValid then [s.slrDest.sllData] else [] := by
  refine SrlFifo.next_spec hs hr (fun h => (Bool.and_eq_true_iff.mp h).2) fun h => ?_
  rw [← SrlFifo.length_contents]
  exact hroom h

/-- The word sent is the first of those held. -/
theorem sent_append_drop (hs : s.slrDest.srlFifo.Valid) (ready : Bool) :
    (if ready && s.mAxisTvalid then [s.mAxis] else []) ++
        s.slrDest.srlFifo.contents.drop (ready && s.mAxisTvalid).toNat =
      s.slrDest.srlFifo.contents := by
  cases hsent : ready && s.mAxisTvalid with
  | false => rfl
  | true =>
    obtain ⟨q, hq⟩ := SrlFifo.exists_of_doutValid hs (Bool.and_eq_true_iff.mp hsent).2
    rw [SrlFifo.contents_of_succ hq]
    rfl

/-- **A place is given away for a word that leaves, or while the FIFO is empty.** -/
theorem given_next (hs : s.slrDest.srlFifo.Valid) (hr : i.rst = false)
    (hroom : s.slrDest.sllValid = true → s.slrDest.srlFifo.contents.length < depth)
    (h : s.slrDest.srlFifo.contents.length + s.given ≤ 6) :
    (s.next i).slrDest.srlFifo.contents.length + (s.next i).given ≤ 6 := by
  obtain ⟨-, hcontents⟩ := srlFifo_next hs hr hroom
  have hlength : (if s.slrDest.sllValid then [s.slrDest.sllData] else []).length =
      s.slrDest.sllValid.toNat := by
    cases s.slrDest.sllValid <;> rfl
  have haccept : (i.sAxisTvalid && s.slrSource.sllReadyR).toNat ≤ s.slrSource.sllReadyR.toNat := by
    cases i.sAxisTvalid
    · exact Nat.zero_le _
    · exact Nat.le_refl _
  have hready : (!i.rst && s.slrSource.sllReady).toNat = s.slrSource.sllReady.toNat := by
    rw [hr]
    rfl
  rw [hcontents, List.length_append, List.length_drop, hlength]
  simp only [given, next, hready]
  unfold given at h
  cases hv : s.mAxisTvalid with
  | false =>
    -- an empty FIFO: five places are all that can be on their way
    have hempty := SrlFifo.contents_of_not_doutValid hs hv
    rw [hempty, List.length_nil]
    have h1 := Bool.toNat_le s.slrDest.sllReady
    have h2 := Bool.toNat_le s.slrSource.sllReady
    have h3 := Bool.toNat_le s.slrSource.sllReadyR
    have h4 := Bool.toNat_le s.slrSource.sllValid
    have h5 := Bool.toNat_le s.slrDest.sllValid
    have h6 := Bool.toNat_le (i.mAxisTready || !false)
    omega
  | true =>
    obtain ⟨q, hq⟩ := SrlFifo.exists_of_doutValid hs hv
    have hlen := congrArg List.length (SrlFifo.contents_of_succ hq)
    rw [List.length_cons] at hlen
    cases i.mAxisTready with
    | true =>
      simp only [Bool.true_and, Bool.true_or, Bool.toNat_true]
      omega
    | false =>
      simp only [Bool.false_and, Bool.false_or, Bool.not_true, Bool.toNat_false]
      omega

end Step

variable {b : Bench depth α}

theorem Bench.Flows.room_for (hdepth : 6 ≤ depth) (h : b.Flows)
    (hv : b.reg.slrDest.sllValid = true) : b.reg.slrDest.srlFifo.contents.length < depth := by
  have hroom := h.room
  rw [given, hv, Bool.toNat_true] at hroom
  omega

/-- **One cycle.** -/
theorem Bench.Flows.step (hdepth : 6 ≤ depth) (h : b.Flows) {i : Inputs α}
    (hr : i.rst = false) : (b.step i).Flows := by
  have hroom := h.room_for hdepth
  obtain ⟨hvalid, hcontents⟩ := srlFifo_next h.valid hr hroom
  refine ⟨hvalid, given_next h.valid hr hroom h.room, ?_⟩
  have hsent := sent_append_drop h.valid i.mAxisTready
  change (b.sent ++ if i.mAxisTready && b.reg.mAxisTvalid then [b.reg.mAxis] else []) ++
    ((b.reg.next i).slrDest.srlFifo.contents ++
      ((if b.reg.slrSource.sllValid then [b.reg.slrSource.sllData] else []) ++
        if i.sAxisTvalid && b.reg.sAxisTready then [i.sAxis] else [])) =
    b.accepted ++ if i.sAxisTvalid && b.reg.sAxisTready then [i.sAxis] else []
  rw [hcontents, ← h.conserved, held, underway]
  simp only [List.append_assoc]
  rw [← List.append_assoc _ (List.drop _ _), hsent]

/-! ## The reset -/

/-- The values the registers are declared with. -/
structure PoweredUp (s : SlrRegister depth α) : Prop where
  sourceValid : s.slrSource.sllValid = false
  sourceReady : s.slrSource.sllReady = false
  sourceReadyR : s.slrSource.sllReadyR = false
  destValid : s.slrDest.sllValid = false
  destReady : s.slrDest.sllReady = false
  ptrReg : s.slrDest.srlFifo.ptrReg = 0
  emptyReg : s.slrDest.srlFifo.emptyReg = true

/-- A reset from power-up on, of any length, or of three cycles or more in any state: that is how
long a word on its way to the FIFO survives. -/
def AfterReset (s : SlrRegister depth α) : Prop :=
  ∃ s₀ resets, (∀ i ∈ resets, i.rst = true) ∧ (s₀.PoweredUp ∨ 3 ≤ resets.length) ∧
    s = run next s₀ resets

/-- No word is held, and none is accepted. -/
structure Fresh (s : SlrRegister depth α) : Prop where
  valid : s.slrDest.srlFifo.Valid
  contents : s.slrDest.srlFifo.contents = []
  sourceReadyR : s.slrSource.sllReadyR = false
  sourceValid : s.slrSource.sllValid = false
  destValid : s.slrDest.sllValid = false

section Reset
variable {s : SlrRegister depth α} {i : Inputs α}

theorem PoweredUp.fresh (h : s.PoweredUp) : s.Fresh where
  valid := by
    refine ⟨?_, ?_⟩
    · rw [h.emptyReg, h.ptrReg]
      rfl
    · rw [h.ptrReg]
      exact Nat.zero_le _
  contents := by
    rw [SrlFifo.contents, h.ptrReg]
    rfl
  sourceReadyR := h.sourceReadyR
  sourceValid := h.sourceValid
  destValid := h.destValid

/-- A cycle of reset empties the FIFO and refuses words. -/
theorem next_of_reset (s : SlrRegister depth α) (hr : i.rst = true) :
    (s.next i).slrDest.srlFifo.Valid ∧ (s.next i).slrDest.srlFifo.contents = [] ∧
      (s.next i).slrSource.sllReadyR = false := by
  obtain ⟨hvalid, hcontents⟩ := SrlFifo.next_of_reset
    (i := ⟨i.rst, s.slrDest.sllValid, s.slrDest.sllData, i.mAxisTready && s.mAxisTvalid⟩)
    s.slrDest.srlFifo hr
  refine ⟨hvalid, hcontents, ?_⟩
  change (!i.rst && s.slrSource.sllReady) = false
  rw [hr]
  rfl

/-- Where nothing is accepted, the registers on the way empty one after the other. -/
theorem sllValid_next (h : s.slrSource.sllReadyR = false) :
    (s.next i).slrSource.sllValid = false := by
  change (i.sAxisTvalid && s.slrSource.sllReadyR) = false
  rw [h, Bool.and_false]

theorem Fresh.next (h : s.Fresh) (hr : i.rst = true) : (s.next i).Fresh := by
  obtain ⟨hvalid, hcontents, hready⟩ := next_of_reset s hr
  exact ⟨hvalid, hcontents, hready, sllValid_next h.sourceReadyR, h.sourceValid⟩

theorem fresh_of_resets (s : SlrRegister depth α) {i j k : Inputs α} (hi : i.rst = true)
    (hj : j.rst = true) (hk : k.rst = true) : (((s.next i).next j).next k).Fresh := by
  have h1 := next_of_reset s hi
  have h2 := next_of_reset (s.next i) hj
  have h3 := next_of_reset ((s.next i).next j) hk
  refine ⟨h3.1, h3.2.1, h3.2.2, sllValid_next h2.2.2, ?_⟩
  exact sllValid_next h1.2.2

theorem AfterReset.fresh (h : s.AfterReset) : s.Fresh := by
  obtain ⟨s₀, resets, hrst, hstart, rfl⟩ := h
  have hkeep : ∀ (t : SlrRegister depth α) (is : List (Inputs α)), t.Fresh →
      (∀ i ∈ is, i.rst = true) → (run SlrRegister.next t is).Fresh := fun t is ht his =>
    run_invariant (fun _ _ h hr => h.next hr) ht (meets_of_mem his t)
  rcases hstart with hpower | hlong
  · exact hkeep s₀ resets hpower.fresh hrst
  · match resets, hlong with
    | i :: j :: k :: rest, _ =>
      simp only [List.forall_mem_cons] at hrst
      obtain ⟨hi, hj, hk, hrest⟩ := hrst
      exact hkeep _ rest (fresh_of_resets s₀ hi hj hk) hrest

theorem Fresh.flows (h : s.Fresh) : Bench.Flows ⟨s, [], []⟩ where
  valid := h.valid
  room := by
    have h1 := Bool.toNat_le s.slrDest.sllReady
    have h2 := Bool.toNat_le s.slrSource.sllReady
    rw [h.contents, given, h.sourceReadyR, h.sourceValid, h.destValid]
    simp only [List.length_nil, Bool.toNat_false]
    omega
  conserved := by
    rw [held, underway, h.contents, h.sourceValid, h.destValid]
    rfl

end Reset

/-! ## Delivery -/

/-- The cycles with the output ready until the last word held has left. -/
def rank (s : SlrRegister depth α) : Nat :=
  max s.held.length (if s.slrSource.sllValid then 3 else if s.slrDest.sllValid then 2 else 0)

theorem length_held (s : SlrRegister depth α) :
    s.held.length = s.slrDest.srlFifo.contents.length + s.slrDest.sllValid.toNat +
      s.slrSource.sllValid.toNat := by
  rw [held, underway, List.length_append, List.length_append, Nat.add_assoc]
  cases s.slrDest.sllValid <;> cases s.slrSource.sllValid <;> rfl

theorem rank_next {s : SlrRegister depth α} {i : Inputs α} (hs : s.slrDest.srlFifo.Valid)
    (hr : i.rst = false) (hidle : i.sAxisTvalid = false)
    (hroom : s.slrDest.sllValid = true → s.slrDest.srlFifo.contents.length < depth) :
    (s.next i).rank ≤ s.rank - if i.mAxisTready = true then 1 else 0 := by
  obtain ⟨-, hcontents⟩ := srlFifo_next hs hr hroom
  have hsource : (s.next i).slrSource.sllValid = false := by
    change (i.sAxisTvalid && s.slrSource.sllReadyR) = false
    rw [hidle, Bool.false_and]
  have hdest : (s.next i).slrDest.sllValid = s.slrSource.sllValid := rfl
  have hempty : s.mAxisTvalid = false → s.slrDest.srlFifo.contents.length = 0 := fun hv => by
    rw [SrlFifo.contents_of_not_doutValid hs hv]
    rfl
  unfold rank
  rw [length_held, length_held, hsource, hdest, hcontents, List.length_append, List.length_drop]
  generalize s.slrDest.srlFifo.contents.length = held at *
  cases s.slrSource.sllValid <;> cases s.slrDest.sllValid <;> cases hv : s.mAxisTvalid <;>
    cases i.mAxisTready <;> simp [hv] at hempty ⊢ <;> omega

/-- Cycles without reset. -/
def Running (cycles : List (Inputs α)) : Prop := ∀ i ∈ cycles, i.rst = false

theorem flows_run (hdepth : 6 ≤ depth) (hb : b.Flows)
    {cycles : List (Inputs α)} (hrun : Running cycles) : (run Bench.step b cycles).Flows :=
  run_invariant (fun _ _ h hr => h.step hdepth hr) hb (meets_of_mem hrun b)

/-- Without an offer no word is accepted. -/
theorem accepted_run {more : List (Inputs α)} (hidle : ∀ i ∈ more, i.sAxisTvalid = false) :
    (run Bench.step b more).accepted = b.accepted := by
  refine run_invariant (P := fun c => c.accepted = b.accepted) ?_ rfl (meets_of_mem hidle b)
  intro c i hc hi
  change c.accepted ++ (if i.sAxisTvalid && c.reg.sAxisTready then _ else []) = _
  rw [hi, Bool.false_and, if_neg Bool.false_ne_true, List.append_nil, hc]

/-- **The words held leave** as often as the output is ready. -/
theorem rank_run (hdepth : 6 ≤ depth) (hb : b.Flows)
    {more : List (Inputs α)} (hmore : ∀ i ∈ more, i.rst = false ∧ i.sAxisTvalid = false) :
    (run Bench.step b more).reg.rank ≤ b.reg.rank - more.countP (·.mAxisTready) := by
  rw [← tally_of_input (I := Inputs α) (·.mAxisTready) b more]
  refine run_exhausts (m := fun c : Bench depth α => c.reg.rank) ?_ ?_ hb (meets_of_mem hmore b)
  · exact fun c i hc hi => hc.step hdepth hi.1
  · exact fun c i hc hi => rank_next hc.valid hi.1 hi.2 (hc.room_for hdepth)

/-- **The register loses no word and its FIFO does not overflow.**  After a reset, whatever is
offered and whenever the output is ready, no word comes to a FIFO that is full; the words sent
followed by at most six words held are the words accepted; and once no more are offered, six
cycles with the output ready are enough to send them all. -/
theorem never_overflows (hdepth : 6 ≤ depth) {s : SlrRegister depth α} (hs : s.AfterReset)
    {cycles : List (Inputs α)} (hrun : Running cycles) :
    let b := run Bench.step ⟨s, [], []⟩ cycles
    (b.reg.slrDest.sllValid = true → b.reg.slrDest.srlFifo.count.toNat < depth) ∧
    b.sent ++ b.reg.held = b.accepted ∧ b.reg.held.length ≤ 6 ∧
    ∀ more : List (Inputs α), (∀ i ∈ more, i.rst = false ∧ i.sAxisTvalid = false) →
      6 ≤ more.countP (·.mAxisTready) → (run Bench.step b more).sent = b.accepted := by
  intro b
  have hb : b.Flows := flows_run hdepth hs.fresh.flows hrun
  have hlen : b.reg.held.length ≤ 6 := by
    have hroom := hb.room
    rw [given] at hroom
    rw [length_held]
    omega
  refine ⟨?_, hb.conserved, hlen, ?_⟩
  · intro hv
    rw [← SrlFifo.length_contents]
    exact hb.room_for hdepth hv
  · intro more hmore hready
    have haccepted := accepted_run (b := b) fun i hi => (hmore i hi).2
    have hrank := rank_run hdepth hb hmore
    have hflows : (run Bench.step b more).Flows :=
      flows_run hdepth hb fun i hi => (hmore i hi).1
    have hsix : b.reg.rank ≤ 6 := by
      unfold rank
      split_ifs <;> omega
    have hnil : (run Bench.step b more).reg.held = [] := by
      apply List.eq_nil_of_length_eq_zero
      have hmax : (run Bench.step b more).reg.held.length ≤ (run Bench.step b more).reg.rank :=
        Nat.le_max_left _ _
      omega
    have hconserved := hflows.conserved
    rwa [hnil, List.append_nil, haccepted] at hconserved

/-- The registers as declared. -/
def powerUp : SlrRegister 16 (BitVec 8) :=
  ⟨⟨false, 0, false, false⟩, ⟨false, 0, false, ⟨fun _ => 0, 0, true⟩⟩⟩

/-- A word offered in every cycle, with the output stalled. -/
def stalled : List (Inputs (BitVec 8)) :=
  (List.range 12).map fun k => ⟨false, true, BitVec.ofNat 8 k, false⟩

theorem never_overflows_stalled :
    let b := run Bench.step ⟨powerUp.next ⟨true, true, 9, false⟩, [], []⟩ stalled
    b.accepted = [2, 3, 4, 5, 6, 7] ∧ b.sent ++ b.reg.held = b.accepted := by
  have hs : (powerUp.next ⟨true, true, 9, false⟩).AfterReset :=
    ⟨powerUp, [⟨true, true, 9, false⟩], by simp, .inl ⟨rfl, rfl, rfl, rfl, rfl, rfl, rfl⟩, rfl⟩
  have hrun : Running stalled := by simp [Running, stalled]
  exact ⟨by decide +kernel, (never_overflows (by decide) hs hrun).2.1⟩

end SlrRegister

end Rosebud
