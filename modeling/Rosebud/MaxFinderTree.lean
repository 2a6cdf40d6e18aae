import Mathlib.Logic.Function.Basic
import Rosebud.Lanes
import Rosebud.Loops
import Rosebud.Selectors

/-! # `max_finder_tree`

The comparators of `max_finder_tree_pow_of_2` write into flat arrays: the results of a stage
begin at `l_offset(stage)`, those it compares at `r_offset(stage)`.  The assignments are
executed here in the order the `generate` loops list them, which is an order in which every wire
is read after it was driven.

The array entry `j` of a stage is the winner of the tournament over the `2 ^ (stage + 1)` ports
from `j * 2 ^ (stage + 1)` on (`Done.intermediateStages`), so that the outputs are those of the
tournament over all ports, and `finds_maximum` follows from the laws of tournaments.
-/
namespace Rosebud
open Loops

/-! ## `max_finder_tree_pow_of_2` -/

namespace MaxFinderTreePowOf2

/-- The wires of the module; `aw` is `ADDR_WIDTH` and `PORT_COUNT` is `2 ^ aw`. -/
structure Wires (aw w : Nat) where
  intMax : Nat → BitVec w
  intPtr : Nat → BitVec aw
  cmpRes : Nat → Bool

variable {aw w : Nat}

def lOffset (stage : BitVec aw) : BitVec (aw + 1) :=
  forLt stage.toNat (fun offset i => offset + BitVec.ofNat (aw + 1) (2 ^ aw / 2 ^ (i + 1))) 0

def rOffset (stage : BitVec aw) : BitVec (aw + 1) :=
  forLt (stage.toNat - 1) (fun offset i => offset + BitVec.ofNat (aw + 1) (2 ^ aw / 2 ^ (i + 1))) 0

variable (values : Nat → BitVec w)

/-- `inp_stage` with its two assignments. -/
def inpStage (t : Wires aw w) (k : Nat) : Wires aw w :=
  let res := MaxFinderTree.greaterThan (values (k + 1)) (values k)
  { cmpRes := Function.update t.cmpRes (k / 2) res
    intMax := Function.update t.intMax (k / 2) (if res then values (k + 1) else values k)
    intPtr := Function.update t.intPtr (k / 2) (if res then 1 else 0) }

/-- `intermediate_stage` with its two assignments. -/
def intermediateStage (stage : Nat) (t : Wires aw w) (j : Nat) : Wires aw w :=
  let l := (lOffset (BitVec.ofNat aw stage)).toNat + j / 2
  let r := (rOffset (BitVec.ofNat aw stage)).toNat + j
  let res := MaxFinderTree.greaterThan (t.intMax (r + 1)) (t.intMax r)
  { cmpRes := Function.update t.cmpRes l res
    intMax := Function.update t.intMax l (if res then t.intMax (r + 1) else t.intMax r)
    intPtr := Function.update t.intPtr l
      (if res then (1#1 ++ (t.intPtr (r + 1)).extractLsb' 0 stage).setWidth aw
       else (0#1 ++ (t.intPtr r).extractLsb' 0 stage).setWidth aw) }

/-- `for (k=0; k<PORT_COUNT; k=k+2)` -/
def inpStages (t : Wires aw w) : Wires aw w :=
  forLt ((2 ^ aw + 1) / 2) (fun t i => inpStage values t (2 * i)) t

/-- `for (j=0; j<(PORT_COUNT/(2**stage)); j=j+2)` -/
def intermediateStages (stage : Nat) (t : Wires aw w) : Wires aw w :=
  forLt ((2 ^ aw / 2 ^ stage + 1) / 2) (fun t i => intermediateStage stage t (2 * i)) t

/-- All wires driven, from whatever they were before. -/
def driven (t : Wires aw w) : Wires aw w :=
  forLt (aw - 1) (fun t s => intermediateStages (s + 1) t) (inpStages values t)

def undriven : Wires aw w := ⟨fun _ => 0, fun _ => 0, fun _ => false⟩

variable (aw) in
def maxVal : BitVec w := (driven values (undriven : Wires aw w)).intMax (2 ^ aw - 2)

variable (aw) in
def maxPtr : BitVec aw := (driven values (undriven : Wires aw w)).intPtr (2 ^ aw - 2)

/-! ### The offsets -/

/-- The number of entries of a stage. -/
def size (aw stage : Nat) : Nat := 2 ^ (aw - (stage + 1))

/-- The number of entries of the stages before `stage`. -/
def offset (aw : Nat) : Nat → Nat
  | 0 => 0
  | stage + 1 => offset aw stage + size aw stage

variable {stage : Nat}

/-- Half of the entries of a stage are left in the next. -/
theorem two_mul_size (h : stage < aw) : 2 * size aw stage = 2 ^ (aw - stage) := by
  rw [size, ← Nat.pow_succ']
  congr 1
  omega

theorem offset_add (h : stage ≤ aw) : offset aw stage + 2 ^ (aw - stage) = 2 ^ aw := by
  induction stage with
  | zero => rw [offset, Nat.zero_add, Nat.sub_zero]
  | succ stage ih =>
    have hprev := ih (Nat.le_of_succ_le h)
    rw [← two_mul_size h] at hprev
    rw [offset, ← hprev, size]
    omega

/-- The sum of the sizes of the stages fits the width of the offsets. -/
theorem toNat_offsets (h : stage ≤ aw) :
    (forLt stage (fun o i => o + BitVec.ofNat (aw + 1) (2 ^ aw / 2 ^ (i + 1))) 0).toNat =
      offset aw stage := by
  refine forLt_invariant (P := fun k (o : BitVec (aw + 1)) => o.toNat = offset aw k) rfl ?_
  intro k o hk ho
  have hdiv : 2 ^ aw / 2 ^ (k + 1) = size aw k := Nat.pow_div (by omega) Nat.two_pos
  have hlt : offset aw k + size aw k < 2 ^ (aw + 1) := by
    have hsum : offset aw (k + 1) + 2 ^ (aw - (k + 1)) = 2 ^ aw := offset_add (by omega)
    have hpos := Nat.two_pow_pos (aw - (k + 1))
    rw [offset] at hsum
    omega
  rw [hdiv, BitVec.toNat_add, BitVec.toNat_ofNat, Nat.add_mod_mod, ho, Nat.mod_eq_of_lt hlt]
  rfl

theorem toNat_stage (h : stage < aw) : (BitVec.ofNat aw stage).toNat = stage := by
  rw [BitVec.toNat_ofNat, Nat.mod_eq_of_lt (Nat.lt_trans h Nat.lt_two_pow_self)]

theorem toNat_lOffset (h : stage < aw) :
    (lOffset (BitVec.ofNat aw stage)).toNat = offset aw stage := by
  rw [lOffset, toNat_stage h, toNat_offsets (Nat.le_of_lt h)]

theorem toNat_rOffset (h : stage + 1 < aw) :
    (rOffset (BitVec.ofNat aw (stage + 1))).toNat = offset aw stage := by
  rw [rOffset, toNat_stage h, Nat.add_sub_cancel, toNat_offsets (by omega)]

/-! ### The wires against the tournament -/

/-- Entry `i` of a stage holds the winner of the ports it stands for. -/
structure Holds (t : Wires aw w) (stage i : Nat) : Prop where
  intMax : t.intMax (offset aw stage + i) =
    (Tournament.play MaxFinderTree.greaterThan values (stage + 1) (i * 2 ^ (stage + 1))).1
  intPtr : (t.intPtr (offset aw stage + i)).toNat =
    (Tournament.play MaxFinderTree.greaterThan values (stage + 1) (i * 2 ^ (stage + 1))).2

/-- All entries of a stage hold their winners. -/
def Done (t : Wires aw w) (stage : Nat) : Prop := ∀ i < size aw stage, Holds values t stage i

variable {values}

/-- Entries that no assignment touched still hold. -/
theorem Holds.congr {t t' : Wires aw w} {stage i : Nat} (h : Holds values t stage i)
    (hmax : t'.intMax (offset aw stage + i) = t.intMax (offset aw stage + i))
    (hptr : t'.intPtr (offset aw stage + i) = t.intPtr (offset aw stage + i)) :
    Holds values t' stage i :=
  ⟨hmax.trans h.intMax, (congrArg BitVec.toNat hptr).trans h.intPtr⟩


variable (values) in
theorem holds_inpStage (haw : 0 < aw) (t : Wires aw w) (i : Nat) :
    Holds values (inpStage values t (2 * i)) 0 i := by
  have hplace : offset aw 0 + i = 2 * i / 2 := by
    rw [offset, Nat.zero_add, Nat.mul_div_cancel_left i Nat.two_pos]
  cases hres : MaxFinderTree.greaterThan (values (2 * i + 1)) (values (2 * i)) with
  | true =>
    constructor
    · simp [inpStage, hplace, hres, Tournament.play, Nat.mul_comm i 2]
    · simp [inpStage, hplace, hres, Tournament.play, Nat.mul_comm i 2, haw]
  | false =>
    constructor
    · simp [inpStage, hplace, hres, Tournament.play, Nat.mul_comm i 2]
    · simp [inpStage, hplace, hres, Tournament.play, Nat.mul_comm i 2]

/-- The pointer of a winner: a bit for the half, then the place within the half. -/
theorem toNat_pointer (h : stage < aw) (bit : Bool) {p : BitVec aw} (hp : p.toNat < 2 ^ stage) :
    ((BitVec.ofBool bit ++ p.extractLsb' 0 stage).setWidth aw).toNat =
      bit.toNat * 2 ^ stage + p.toNat := by
  have hle : 2 ^ (stage + 1) ≤ 2 ^ aw := Nat.pow_le_pow_right Nat.two_pos h
  rw [BitVec.toNat_setWidth, Lanes.toNat_append, BitVec.extractLsb'_toNat, Nat.shiftRight_zero,
    Nat.mod_eq_of_lt hp, BitVec.toNat_ofBool]
  apply Nat.mod_eq_of_lt
  cases bit
  · rw [Bool.toNat_false]; omega
  · rw [Bool.toNat_true]; omega

/-- A comparator of a stage, with the places of its wires. -/
theorem intermediateStage_eq (h : stage + 1 < aw) (t : Wires aw w) (i : Nat) :
    let r := offset aw stage + 2 * i
    let res := MaxFinderTree.greaterThan (t.intMax (r + 1)) (t.intMax r)
    (intermediateStage (stage + 1) t (2 * i)).intMax =
      Function.update t.intMax (offset aw (stage + 1) + i)
        (if res then t.intMax (r + 1) else t.intMax r) ∧
    (intermediateStage (stage + 1) t (2 * i)).intPtr =
      Function.update t.intPtr (offset aw (stage + 1) + i)
        (if res then
          (BitVec.ofBool true ++ (t.intPtr (r + 1)).extractLsb' 0 (stage + 1)).setWidth aw
         else (BitVec.ofBool false ++ (t.intPtr r).extractLsb' 0 (stage + 1)).setWidth aw) := by
  have hl : (lOffset (BitVec.ofNat aw (stage + 1))).toNat + 2 * i / 2 =
      offset aw (stage + 1) + i := by
    rw [toNat_lOffset h, Nat.mul_div_cancel_left i Nat.two_pos]
  rw [← hl, ← toNat_rOffset h]
  exact ⟨rfl, rfl⟩

/-- The comparator of two winners finds the winner of both. -/
theorem holds_intermediateStage {t : Wires aw w} {stage i : Nat} (h : stage + 1 < aw)
    (hlo : Holds values t stage (2 * i)) (hhi : Holds values t stage (2 * i + 1)) :
    Holds values (intermediateStage (stage + 1) t (2 * i)) (stage + 1) i := by
  have hbase : 2 * i * 2 ^ (stage + 1) = i * 2 ^ (stage + 1 + 1) := by
    rw [Nat.pow_succ 2 (stage + 1), Nat.mul_comm 2 i, Nat.mul_assoc, Nat.mul_comm 2]
  have hbase' : (2 * i + 1) * 2 ^ (stage + 1) = i * 2 ^ (stage + 1 + 1) + 2 ^ (stage + 1) := by
    rw [Nat.add_mul, hbase, Nat.one_mul]
  obtain ⟨hloMax, hloPtr⟩ := hlo
  obtain ⟨hhiMax, hhiPtr⟩ := hhi
  rw [hbase] at hloMax hloPtr
  rw [hbase', ← Nat.add_assoc] at hhiMax hhiPtr
  have hloLt := hloPtr.trans_lt (Tournament.play_place_lt _ _ _ _)
  have hhiLt := hhiPtr.trans_lt (Tournament.play_place_lt _ _ _ _)
  obtain ⟨hmax, hptr⟩ := intermediateStage_eq h t i
  rcases Tournament.play_succ MaxFinderTree.greaterThan values (stage + 1)
    (i * 2 ^ (stage + 1 + 1)) with ⟨hwin, hplay⟩ | ⟨hwin, hplay⟩
  · rw [← hhiMax, ← hloMax] at hwin
    constructor
    · rw [hplay, hmax, Function.update_self, if_pos hwin, hhiMax]
    · rw [hplay, hptr, Function.update_self, if_pos hwin, toNat_pointer h true hhiLt, hhiPtr,
        Bool.toNat_true, Nat.one_mul]
  · rw [← hhiMax, ← hloMax] at hwin
    constructor
    · rw [hplay, hmax, Function.update_self, if_neg (Bool.not_eq_true _ ▸ hwin), hloMax]
    · rw [hplay, hptr, Function.update_self, if_neg (Bool.not_eq_true _ ▸ hwin),
        toNat_pointer h false hloLt, hloPtr, Bool.toNat_false, Nat.zero_mul, Nat.zero_add]

/-- An assignment leaves the other entries alone. -/
theorem Holds.frame {t : Wires aw w} {stage i s j : Nat} (h : s + 1 < aw)
    (hholds : Holds values t stage i) (hne : offset aw stage + i ≠ offset aw (s + 1) + j) :
    Holds values (intermediateStage (s + 1) t (2 * j)) stage i := by
  obtain ⟨hmax, hptr⟩ := intermediateStage_eq h t j
  refine hholds.congr ?_ ?_
  · rw [hmax, Function.update_of_ne hne]
  · rw [hptr, Function.update_of_ne hne]

theorem done_inpStages (haw : 0 < aw) (t : Wires aw w) : Done values (inpStages values t) 0 := by
  have hcount : (2 ^ aw + 1) / 2 = size aw 0 := by
    have h := two_mul_size haw
    rw [Nat.sub_zero] at h
    omega
  rw [inpStages, hcount]
  refine forLt_invariant (P := fun k t => ∀ i < k, Holds values t 0 i)
    (fun i hi => absurd hi (Nat.not_lt_zero i)) ?_
  intro k t hk ht i hi
  rcases Nat.lt_succ_iff_lt_or_eq.mp hi with hlt | rfl
  · have hne : offset aw 0 + i ≠ 2 * k / 2 := by
      rw [offset]
      omega
    exact (ht i hlt).congr (Function.update_of_ne hne _ _) (Function.update_of_ne hne _ _)
  · exact holds_inpStage values haw t i

/-- **One stage of comparators** turns the winners of the stage before into its own. -/
theorem Done.intermediateStages {t : Wires aw w} (h : stage + 1 < aw)
    (hdone : Done values t stage) :
    Done values (intermediateStages (stage + 1) t) (stage + 1) := by
  have hcount : (2 ^ aw / 2 ^ (stage + 1) + 1) / 2 = size aw (stage + 1) := by
    have hsize := two_mul_size h
    rw [Nat.pow_div (Nat.le_of_lt h) Nat.two_pos]
    omega
  have htwo : 2 * size aw (stage + 1) = size aw stage := two_mul_size h
  rw [MaxFinderTreePowOf2.intermediateStages, hcount]
  -- the stage before stays, and the entries of this one are filled from the first on
  refine (forLt_invariant
    (P := fun k t => Done values t stage ∧ ∀ i < k, Holds values t (stage + 1) i)
    ⟨hdone, fun i hi => absurd hi (Nat.not_lt_zero i)⟩ ?_).2
  intro k t hk ⟨hprev, hnew⟩
  refine ⟨fun i hi => (hprev i hi).frame h ?_, ?_⟩
  · rw [offset]
    omega
  · intro i hi
    rcases Nat.lt_succ_iff_lt_or_eq.mp hi with hlt | rfl
    · exact (hnew i hlt).frame h (by omega)
    · exact holds_intermediateStage h (hprev (2 * i) (by omega)) (hprev (2 * i + 1) (by omega))

/-- **The last entry is the winner of all ports.** -/
theorem holds_driven (values : Nat → BitVec w) (haw : 0 < aw) (t : Wires aw w) :
    Holds values (driven values t) (aw - 1) 0 := by
  have hdone : Done values (driven values t) (aw - 1) := by
    refine forLt_invariant (P := fun k t => Done values t k) (done_inpStages haw t) ?_
    intro k t hk ht
    exact ht.intermediateStages (by omega)
  exact hdone 0 (Nat.two_pow_pos _)

theorem offset_last (haw : 0 < aw) : offset aw (aw - 1) + 0 = 2 ^ aw - 2 := by
  have h : offset aw (aw - 1) + 2 ^ (aw - (aw - 1)) = 2 ^ aw := offset_add (Nat.sub_le aw 1)
  have hone : aw - (aw - 1) = 1 := by omega
  rw [hone, Nat.pow_one] at h
  omega

variable (values) in
theorem maxVal_eq_play (haw : 0 < aw) :
    maxVal aw values = (Tournament.play MaxFinderTree.greaterThan values aw 0).1 := by
  have h := (holds_driven values haw undriven).intMax
  rwa [offset_last haw, Nat.sub_add_cancel haw, Nat.zero_mul] at h

variable (values) in
theorem toNat_maxPtr (haw : 0 < aw) :
    (maxPtr aw values).toNat = (Tournament.play MaxFinderTree.greaterThan values aw 0).2 := by
  have h := (holds_driven values haw undriven).intPtr
  rwa [offset_last haw, Nat.sub_add_cancel haw, Nat.zero_mul] at h

end MaxFinderTreePowOf2

/-! ## `max_finder_tree` -/

namespace MaxFinderTree
variable {n w : Nat} (values : Fin n → BitVec w) (valids : Fin n → Bool)

/-- `max_val` as the comparators of `max_finder` drive it. -/
def treeMaxVal : BitVec w :=
  MaxFinderTreePowOf2.maxVal (clog2 n) (padded 0 (maskedValues values valids))

/-- `max_ptr` as the comparators of `max_finder` drive it. -/
def treeMaxPtr : BitVec (clog2 n) :=
  MaxFinderTreePowOf2.maxPtr (clog2 n) (padded 0 (maskedValues values valids))

variable {values valids}

theorem maxValid_iff :
    maxValid values valids = true ↔ ∃ i, valids i = true ∧ values i ≠ 0 := by
  rw [maxValid, decide_eq_true_iff]
  refine exists_congr fun i => ?_
  cases hv : valids i <;> simp [maskedValues, hv]

/-- The port found is the first of those with the value found. -/
theorem maxPtr_le {i : Fin n} (hi : valids i = true) (hval : values i = maxVal values valids) :
    maxPtr values valids ≤ i.val := by
  by_contra hlt
  have h := Tournament.beats_of_lt greaterThan_consistent (Nat.lt_of_not_le hlt)
  have hmask : maskedValues values valids i = values i := by simp [maskedValues, hi]
  rw [Nat.zero_add, padded_val, hmask, greaterThan, decide_eq_true_eq, hval] at h
  exact absurd h (BitVec.lt_irrefl _)

/-- **The tree finds the maximum.**  For every number of ports from two on, `max_valid` tells
whether some valid port has a value other than zero; then `max_val` is the largest value of a
valid port, and `max_ptr` the first valid port that has it. -/
theorem finds_maximum (hn : 2 ≤ n) (values : Fin n → BitVec w) (valids : Fin n → Bool) :
    (maxValid values valids = true ↔ ∃ i, valids i = true ∧ values i ≠ 0) ∧
    (maxValid values valids = true →
      ∃ hlt : (treeMaxPtr values valids).toNat < n,
        valids ⟨(treeMaxPtr values valids).toNat, hlt⟩ = true ∧
        values ⟨(treeMaxPtr values valids).toNat, hlt⟩ = treeMaxVal values valids ∧
        (∀ i, valids i = true → values i ≤ treeMaxVal values valids) ∧
        ∀ i, valids i = true → values i = treeMaxVal values valids →
          (treeMaxPtr values valids).toNat ≤ i.val) := by
  have hval : treeMaxVal values valids = maxVal values valids :=
    MaxFinderTreePowOf2.maxVal_eq_play _ (clog2_pos hn)
  have hptr : (treeMaxPtr values valids).toNat = maxPtr values valids :=
    MaxFinderTreePowOf2.toNat_maxPtr _ (clog2_pos hn)
  refine ⟨maxValid_iff, ?_⟩
  intro h
  simp only [hval, hptr]
  obtain ⟨hlt, hvalid, -⟩ := masked_maxPtr h
  have hmask : maskedValues values valids ⟨maxPtr values valids, hlt⟩ =
      values ⟨maxPtr values valids, hlt⟩ := by simp [maskedValues, hvalid]
  have hmax : values ⟨maxPtr values valids, hlt⟩ = maxVal values valids := by
    rw [maxVal_eq, padded_of_lt hlt, hmask]
  refine ⟨hlt, hvalid, hmax, ?_, fun i hi heq => maxPtr_le hi heq⟩
  intro i hi
  rw [← hmax]
  exact le_value_maxPtr hlt hi

/-- Six ports with these values, of which the second is masked. -/
def sampleValues (i : Fin 6) : BitVec 4 := [3, 9, 0, 7, 2, 7].getD i 0

def sampleValids (i : Fin 6) : Bool := decide (i ≠ 1)

theorem finds_maximum_six :
    (treeMaxPtr sampleValues sampleValids).toNat = 3 ∧
      ∀ i, sampleValids i = true → sampleValues i ≤ treeMaxVal sampleValues sampleValids := by
  refine ⟨by decide +kernel, ?_⟩
  obtain ⟨-, -, -, hle, -⟩ :=
    (finds_maximum (by decide) sampleValues sampleValids).2 (by decide +kernel)
  exact hle

end MaxFinderTree

end Rosebud
