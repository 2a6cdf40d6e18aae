import Mathlib.Data.Finset.Card
import Mathlib.Order.Interval.Finset.Nat
import Rosebud.Lanes
import Rosebud.Loops
import Rosebud.Selectors

/-! # `spaced_2lvl_penc`

The inputs of a bin are `BIN_COUNT` apart.  They are cut into `PENC2_SIZE` groups of `PENC1_SIZE`
bits; the first stage encodes each group, the second the nonempty groups of a bin.

The counters of set bits are as wide as the encoded indices, so that a group in which every bit
is set, or a bin in which every group is nonempty, is counted as zero.  `Overflows` says when the
error flag is lost that way; the valid flag and the index do not depend on the counters.
-/
namespace Rosebud
open Loops

/-- The parameters of the module. -/
structure PencParams where
  inputWidth : Nat
  penc1Size : Nat
  penc2Size : Nat
  binCount : Nat

namespace PencParams
variable (P : PencParams)

def largeBlock : Nat := P.binCount * P.penc1Size * P.penc2Size
def outputWidth : Nat := clog2 P.largeBlock
def jump : Nat := P.binCount * P.penc2Size
def penc1Width : Nat := clog2 P.penc1Size
def penc2Width : Nat := clog2 P.penc2Size
def binWidth : Nat := clog2 P.binCount

/-- The sizes are powers of two, none of them one, and large enough for the input. -/
structure Regular : Prop where
  penc1Size : ∃ a, P.penc1Size = 2 ^ (a + 1)
  penc2Size : ∃ b, P.penc2Size = 2 ^ (b + 1)
  binCount : ∃ c, P.binCount = 2 ^ (c + 1)
  inputWidth_le : P.inputWidth ≤ P.largeBlock

end PencParams

/-- The registers; `index`, `valid` and `error` are the outputs, by bin. -/
structure Spaced2lvlPenc (P : PencParams) where
  lvl1Index : Nat → BitVec P.penc1Width
  lvl1Valid : Nat → Bool
  lvl1Error : Nat → Bool
  index : Nat → BitVec P.outputWidth
  valid : Nat → Bool
  error : Nat → Bool

namespace Spaced2lvlPenc
variable {P : PencParams}

structure Inputs (P : PencParams) where
  rst : Bool
  oneHot : BitVec P.inputWidth

def adjustedInput (oneHot : BitVec P.inputWidth) : BitVec P.largeBlock :=
  oneHot.setWidth P.largeBlock

def penc1Input (oneHot : BitVec P.inputWidth) (i j : Nat) : Bool :=
  (adjustedInput oneHot).getLsbD (j * P.jump + i)

/-- The variables of `lvl1_penc`. -/
structure Lvl1Penc (P : PencParams) where
  penc1Output : BitVec P.penc1Width
  ones1 : BitVec P.penc1Width

def lvl1Penc (penc1Input : Nat → Bool) : Lvl1Penc P :=
  forDown P.penc1Size
    (fun v k =>
      if penc1Input k then
        { penc1Output := BitVec.ofNat P.penc1Width k
          ones1 := v.ones1 + 1 }
      else v)
    ⟨0, 0⟩

/-- The variables of `lvl2_penc`. -/
structure Lvl2Penc (P : PencParams) where
  penc2Output : BitVec P.penc2Width
  ones2 : BitVec P.penc2Width
  lvl1SelectedIndex : BitVec P.penc1Width
  lvl1SelectedError : Bool

def penc2Input (s : Spaced2lvlPenc P) (p q : Nat) : Bool := s.lvl1Valid (q * P.binCount + p)

def lvl2Penc (s : Spaced2lvlPenc P) (p : Nat) : Lvl2Penc P :=
  forDown P.penc2Size
    (fun v r =>
      if s.penc2Input p r then
        { penc2Output := BitVec.ofNat P.penc2Width r
          ones2 := v.ones2 + 1
          lvl1SelectedIndex := s.lvl1Index (r * P.binCount + p)
          lvl1SelectedError := s.lvl1Error (r * P.binCount + p) }
      else v)
    ⟨0, 0, s.lvl1Index p, s.lvl1Error p⟩

def next (s : Spaced2lvlPenc P) (i : Inputs P) : Spaced2lvlPenc P where
  lvl1Index := fun k => (lvl1Penc (penc1Input i.oneHot k)).penc1Output
  lvl1Valid := fun k => !i.rst && (List.range P.penc1Size).any (penc1Input i.oneHot k)
  lvl1Error := fun k =>
    !i.rst && decide (1 < (lvl1Penc (P := P) (penc1Input i.oneHot k)).ones1.toNat)
  index := fun p =>
    ((s.lvl2Penc p).lvl1SelectedIndex ++ (s.lvl2Penc p).penc2Output ++
      BitVec.ofNat P.binWidth p).setWidth P.outputWidth
  valid := fun p => !i.rst && (List.range P.penc2Size).any (s.penc2Input p)
  error := fun p =>
    !i.rst && (decide (1 < (s.lvl2Penc p).ones2.toNat) || (s.lvl2Penc p).lvl1SelectedError)

/-! ## The loops -/

/-- The index left by a loop, or zero. -/
def first (n : Nat) (input : Nat → Bool) : Nat := ((List.range n).find? input).getD 0

theorem penc1Output_eq (input : Nat → Bool) :
    (lvl1Penc input).penc1Output = BitVec.ofNat P.penc1Width (first P.penc1Size input) :=
  forDown_first input Lvl1Penc.penc1Output (BitVec.ofNat P.penc1Width)
    (fun v k => by cases input k <;> rfl) _ rfl

theorem ones1_eq (input : Nat → Bool) :
    (lvl1Penc input).ones1 =
      BitVec.ofNat P.penc1Width (Nat.count (input · = true) P.penc1Size) := by
  refine (forDown_count input Lvl1Penc.ones1 (fun v k => ?_) _ _).trans (BitVec.zero_add _)
  cases input k <;> rfl

section Lvl2
variable (s : Spaced2lvlPenc P) (p : Nat)

theorem penc2Output_eq :
    (s.lvl2Penc p).penc2Output =
      BitVec.ofNat P.penc2Width (first P.penc2Size (s.penc2Input p)) :=
  forDown_first (s.penc2Input p) Lvl2Penc.penc2Output (BitVec.ofNat P.penc2Width)
    (fun v r => by cases s.penc2Input p r <;> rfl) _ rfl

theorem ones2_eq :
    (s.lvl2Penc p).ones2 =
      BitVec.ofNat P.penc2Width (Nat.count (s.penc2Input p · = true) P.penc2Size) := by
  refine (forDown_count (s.penc2Input p) Lvl2Penc.ones2 (fun v r => ?_) _ _).trans
    (BitVec.zero_add _)
  cases s.penc2Input p r <;> rfl

theorem lvl1SelectedIndex_eq :
    (s.lvl2Penc p).lvl1SelectedIndex =
      s.lvl1Index (first P.penc2Size (s.penc2Input p) * P.binCount + p) :=
  forDown_first (s.penc2Input p) Lvl2Penc.lvl1SelectedIndex
    (fun r => s.lvl1Index (r * P.binCount + p))
    (fun v r => by cases s.penc2Input p r <;> rfl) _ (by simp)

theorem lvl1SelectedError_eq :
    (s.lvl2Penc p).lvl1SelectedError =
      s.lvl1Error (first P.penc2Size (s.penc2Input p) * P.binCount + p) :=
  forDown_first (s.penc2Input p) Lvl2Penc.lvl1SelectedError
    (fun r => s.lvl1Error (r * P.binCount + p))
    (fun v r => by cases s.penc2Input p r <;> rfl) _ (by simp)

end Lvl2

/-! ## Bins and groups -/

section Groups
variable (oneHot : BitVec P.inputWidth) (p : Nat)

/-- The positions of the set bits of a bin. -/
def inBin : Finset Nat :=
  (Finset.range P.inputWidth).filter fun i => oneHot.getLsbD i = true ∧ i % P.binCount = p

/-- Bit `k` of group `r` of a bin. -/
def groupBit (r k : Nat) : Bool := penc1Input oneHot (r * P.binCount + p) k

/-- The number of set bits of a group. -/
def groupSize (r : Nat) : Nat := Nat.count (groupBit oneHot p r · = true) P.penc1Size

/-- The number of nonempty groups of a bin. -/
def groupCount : Nat := Nat.count (0 < groupSize oneHot p ·) P.penc2Size

/-- A counter wraps and the error is lost: the only nonempty group is full, or all groups are
nonempty and the first has a single bit or is full. -/
def Overflows : Prop :=
  (groupCount oneHot p = 1 ∧ ∃ r < P.penc2Size, groupSize oneHot p r = P.penc1Size) ∨
    (groupCount oneHot p = P.penc2Size ∧
      (groupSize oneHot p 0 = 1 ∨ groupSize oneHot p 0 = P.penc1Size))

instance : Decidable (Overflows oneHot p) := inferInstanceAs (Decidable (_ ∨ _))

/-- The position of bit `k` of group `r` of a bin. -/
def position (P : PencParams) (p r k : Nat) : Nat := k * P.jump + (r * P.binCount + p)

end Groups

theorem two_le_count {f : Nat → Prop} [DecidablePred f] {n : Nat} :
    2 ≤ Nat.count f n ↔ ∃ i < n, ∃ j < n, i ≠ j ∧ f i ∧ f j := by
  rw [Nat.count_eq_card_filter_range]
  refine Finset.one_lt_card.trans ⟨?_, ?_⟩
  · rintro ⟨i, hi, j, hj, hne⟩
    rw [Finset.mem_filter, Finset.mem_range] at hi hj
    exact ⟨i, hi.1, j, hj.1, hne, hi.2, hj.2⟩
  · rintro ⟨i, hi, j, hj, hne, hfi, hfj⟩
    exact ⟨i, Finset.mem_filter.mpr ⟨Finset.mem_range.mpr hi, hfi⟩, j,
      Finset.mem_filter.mpr ⟨Finset.mem_range.mpr hj, hfj⟩, hne⟩

theorem count_pos_iff {f : Nat → Prop} [DecidablePred f] {n : Nat} :
    0 < Nat.count f n ↔ ∃ i < n, f i := by
  rw [Nat.count_eq_card_filter_range, Finset.card_pos]
  constructor
  · rintro ⟨i, hi⟩
    rw [Finset.mem_filter, Finset.mem_range] at hi
    exact ⟨i, hi⟩
  · rintro ⟨i, hi, hfi⟩
    exact ⟨i, Finset.mem_filter.mpr ⟨Finset.mem_range.mpr hi, hfi⟩⟩

/-- A counter of the width of the index wraps for the full count only. -/
theorem one_lt_mod_iff {a c : Nat} (hc : c ≤ 2 ^ (a + 1)) :
    1 < c % 2 ^ (a + 1) ↔ 2 ≤ c ∧ c ≠ 2 ^ (a + 1) := by
  rcases Nat.lt_or_eq_of_le hc with hlt | rfl
  · rw [Nat.mod_eq_of_lt hlt]
    omega
  · rw [Nat.mod_self]
    omega

theorem first_of_exists {n : Nat} {input : Nat → Bool} (h : ∃ k < n, input k = true) :
    first n input < n ∧ input (first n input) = true := by
  cases hfind : (List.range n).find? input with
  | none =>
    obtain ⟨k, hk, hinput⟩ := h
    exact absurd hinput (List.find?_eq_none.mp hfind k (List.mem_range.mpr hk))
  | some k =>
    rw [first, hfind]
    exact ⟨List.mem_range.mp (List.mem_of_find?_eq_some hfind), List.find?_some hfind⟩

theorem first_of_zero {n : Nat} {input : Nat → Bool} (hn : 0 < n) (h : input 0 = true) :
    first n input = 0 := by
  obtain ⟨m, rfl⟩ := Nat.exists_eq_succ_of_ne_zero (Nat.ne_of_gt hn)
  rw [first, List.range_succ_eq_map, List.find?_cons_of_pos h]
  rfl

theorem first_of_none {n : Nat} {input : Nat → Bool} (h : ∀ k < n, input k = false) :
    first n input = 0 := by
  have hfind : (List.range n).find? input = none := by
    rw [List.find?_eq_none]
    intro k hk
    rw [h k (List.mem_range.mp hk)]
    exact Bool.false_ne_true
  rw [first, hfind]
  rfl

/-- **When the wrapping counters tell a crowd from a single bit**, for `2 ^ (b + 1)` groups of
the sizes `f`. -/
theorem error_right_iff {a b : Nat} {f : Nat → Nat} (hf : ∀ r, f r ≤ 2 ^ (a + 1)) :
    let g := Nat.count (0 < f ·) (2 ^ (b + 1))
    let r₀ := first (2 ^ (b + 1)) fun r => decide (0 < f r)
    ((1 < g % 2 ^ (b + 1) ∨ 1 < f r₀ % 2 ^ (a + 1)) ↔
        (2 ≤ g ∨ ∃ r < 2 ^ (b + 1), 2 ≤ f r)) ↔
      ¬ ((g = 1 ∧ ∃ r < 2 ^ (b + 1), f r = 2 ^ (a + 1)) ∨
        (g = 2 ^ (b + 1) ∧ (f 0 = 1 ∨ f 0 = 2 ^ (a + 1)))) := by
  intro g r₀
  have ha : 2 ≤ 2 ^ (a + 1) := Nat.pow_succ' ▸ Nat.le_mul_of_pos_right 2 (Nat.two_pow_pos a)
  have hb : 2 ≤ 2 ^ (b + 1) := Nat.pow_succ' ▸ Nat.le_mul_of_pos_right 2 (Nat.two_pow_pos b)
  have hg : g ≤ 2 ^ (b + 1) := Nat.count_le _
  rw [one_lt_mod_iff hg, one_lt_mod_iff (hf r₀)]
  by_cases h0 : g = 0
  · -- nothing is set
    have hnone : ∀ r < 2 ^ (b + 1), f r = 0 := by
      intro r hr
      by_contra hne
      have hpos : 0 < g := count_pos_iff.mpr ⟨r, hr, Nat.pos_of_ne_zero hne⟩
      omega
    have hr₀ : r₀ = 0 := first_of_none fun k hk => by rw [hnone k hk]; rfl
    have hzero : f r₀ = 0 := hr₀ ▸ hnone 0 (by omega)
    refine iff_of_true (iff_of_false (by omega) ?_) (by omega)
    rintro (h | ⟨r, hr, h⟩)
    · omega
    · rw [hnone r hr] at h
      omega
  have hsome : ∃ r < 2 ^ (b + 1), decide (0 < f r) = true :=
    (count_pos_iff.mp (Nat.pos_of_ne_zero h0)).imp fun r h => ⟨h.1, decide_eq_true h.2⟩
  obtain ⟨hlt, hdecide⟩ : r₀ < 2 ^ (b + 1) ∧ decide (0 < f r₀) = true := first_of_exists hsome
  have hr₀ : 0 < f r₀ := of_decide_eq_true hdecide
  by_cases h1 : g = 1
  · -- the first group is the only one, and its counter decides
    have honly : ∀ r < 2 ^ (b + 1), 0 < f r → r = r₀ := by
      intro r hr hfr
      by_contra hne
      have htwo : 2 ≤ g := two_le_count.mpr ⟨r, hr, r₀, hlt, hne, hfr, hr₀⟩
      omega
    have hmany : (∃ r < 2 ^ (b + 1), 2 ≤ f r) ↔ 2 ≤ f r₀ := by
      constructor
      · rintro ⟨r, hr, h⟩
        rwa [← honly r hr (by omega)]
      · exact fun h => ⟨r₀, hlt, h⟩
    have hfull : (∃ r < 2 ^ (b + 1), f r = 2 ^ (a + 1)) ↔ f r₀ = 2 ^ (a + 1) := by
      constructor
      · rintro ⟨r, hr, h⟩
        rwa [← honly r hr (by omega)]
      · exact fun h => ⟨r₀, hlt, h⟩
    rw [hmany, hfull]
    omega
  have hcrowd : 2 ≤ g := by omega
  have hfirst : g = 2 ^ (b + 1) → 0 < f 0 ∧ r₀ = 0 := by
    intro hn
    have hall : 0 < f 0 := Nat.count_iff_forall.mp hn 0 (by omega)
    exact ⟨hall, first_of_zero (by omega) (decide_eq_true hall)⟩
  have hmany : 2 ≤ g ∨ ∃ r < 2 ^ (b + 1), 2 ≤ f r := .inl hcrowd
  have hsingle : ¬ (g = 1 ∧ ∃ r < 2 ^ (b + 1), f r = 2 ^ (a + 1)) := fun h => h1 h.1
  rw [iff_true_right hmany, or_iff_right hsingle]
  by_cases hn : g = 2 ^ (b + 1)
  · -- the groups are counted as none, and the first of all decides
    obtain ⟨hall, hzero⟩ := hfirst hn
    rw [hzero]
    omega
  · exact iff_of_true (.inl ⟨hcrowd, hn⟩) fun h => hn h.1

/-! ## Positions -/

section Position
variable {oneHot : BitVec P.inputWidth} {p r r' k k' : Nat}

theorem position_div (hp : p < P.binCount) :
    position P p r k / P.binCount = k * P.penc2Size + r := by
  have heq : position P p r k = p + (k * P.penc2Size + r) * P.binCount := by
    rw [position, PencParams.jump, Nat.add_mul, Nat.mul_assoc, Nat.mul_comm P.penc2Size]
    omega
  rw [heq, Nat.add_mul_div_right _ _ (Nat.zero_lt_of_lt hp), Nat.div_eq_of_lt hp, Nat.zero_add]

theorem position_mod (hp : p < P.binCount) : position P p r k % P.binCount = p := by
  rw [position, PencParams.jump, Nat.mul_left_comm, Nat.mul_add_mod, Nat.mul_comm r,
    Nat.mul_add_mod, Nat.mod_eq_of_lt hp]

theorem position_inj (hp : p < P.binCount) (hr : r < P.penc2Size) (hr' : r' < P.penc2Size)
    (h : position P p r k = position P p r' k') : r = r' ∧ k = k' := by
  have hdiv := congrArg (· / P.binCount) h
  simp only [position_div hp] at hdiv
  have hmod := congrArg (· % P.penc2Size) hdiv
  simp only [Nat.mul_add_mod', Nat.mod_eq_of_lt hr, Nat.mod_eq_of_lt hr'] at hmod
  subst hmod
  exact ⟨rfl, Nat.eq_of_mul_eq_mul_right (Nat.zero_lt_of_lt hr) (Nat.add_right_cancel hdiv)⟩

theorem mem_inBin {i : Nat} :
    i ∈ inBin oneHot p ↔ oneHot.getLsbD i = true ∧ i % P.binCount = p := by
  rw [inBin, Finset.mem_filter, Finset.mem_range]
  exact and_iff_right_of_imp fun h => BitVec.lt_of_getLsbD h.1

/-- The bits of the groups of a bin are the bits of the bin. -/
theorem position_mem_inBin (hP : P.Regular) (hp : p < P.binCount) :
    position P p r k ∈ inBin oneHot p ↔ groupBit oneHot p r k = true := by
  rw [mem_inBin, position_mod hp, groupBit, penc1Input, adjustedInput, BitVec.getLsbD_setWidth,
    Bool.and_eq_true, decide_eq_true_eq, ← position]
  refine ⟨fun h => ⟨?_, h.1⟩, fun h => ⟨h.2, rfl⟩⟩
  exact Nat.lt_of_lt_of_le (BitVec.lt_of_getLsbD h.1) hP.inputWidth_le

theorem exists_position (hP : P.Regular) {i : Nat} (hi : i ∈ inBin oneHot p) :
    ∃ r < P.penc2Size, ∃ k < P.penc1Size, i = position P p r k := by
  obtain ⟨hbit, hmod⟩ := mem_inBin.mp hi
  have hlt : i < P.binCount * (P.penc2Size * P.penc1Size) := by
    have hle := Nat.lt_of_lt_of_le (BitVec.lt_of_getLsbD hbit) hP.inputWidth_le
    rwa [PencParams.largeBlock, Nat.mul_assoc, Nat.mul_comm P.penc1Size] at hle
  have hpos : 0 < P.penc2Size := by
    obtain ⟨b, hb⟩ := hP.penc2Size
    exact hb ▸ Nat.two_pow_pos _
  refine ⟨i / P.binCount % P.penc2Size, Nat.mod_lt _ hpos, i / P.binCount / P.penc2Size,
    Nat.div_lt_of_lt_mul (Nat.div_lt_of_lt_mul hlt), ?_⟩
  calc i = P.binCount * (i / P.binCount) + i % P.binCount := (Nat.div_add_mod _ _).symm
    _ = P.binCount * (P.penc2Size * (i / P.binCount / P.penc2Size) +
          i / P.binCount % P.penc2Size) + p := by
      rw [hmod, Nat.div_add_mod (i / P.binCount)]
    _ = _ := by
      rw [position, PencParams.jump, Nat.mul_add, ← Nat.mul_assoc, Nat.add_assoc,
        Nat.mul_comm (P.binCount * P.penc2Size), Nat.mul_comm P.binCount (_ % _)]

/-- A bin has a set bit iff one of its groups has. -/
theorem inBin_nonempty (hP : P.Regular) (hp : p < P.binCount) :
    (inBin oneHot p).Nonempty ↔ ∃ r < P.penc2Size, 0 < groupSize oneHot p r := by
  constructor
  · rintro ⟨i, hi⟩
    obtain ⟨r, hr, k, hk, rfl⟩ := exists_position hP hi
    exact ⟨r, hr, count_pos_iff.mpr ⟨k, hk, (position_mem_inBin hP hp).mp hi⟩⟩
  · rintro ⟨r, hr, hpos⟩
    obtain ⟨k, -, hk⟩ := count_pos_iff.mp hpos
    exact ⟨_, (position_mem_inBin hP hp).mpr hk⟩

/-- Two set bits are in one group, or in two. -/
theorem two_le_card_inBin (hP : P.Regular) (hp : p < P.binCount) :
    2 ≤ (inBin oneHot p).card ↔
      2 ≤ groupCount oneHot p ∨ ∃ r < P.penc2Size, 2 ≤ groupSize oneHot p r := by
  refine Finset.one_lt_card.trans ⟨?_, ?_⟩
  · rintro ⟨i, hi, j, hj, hne⟩
    obtain ⟨r, hr, k, hk, rfl⟩ := exists_position hP hi
    obtain ⟨r', hr', k', hk', rfl⟩ := exists_position hP hj
    rw [position_mem_inBin hP hp] at hi hj
    by_cases hgroup : r = r'
    · subst hgroup
      have hbit : k ≠ k' := fun h => hne (by rw [h])
      exact .inr ⟨r, hr, two_le_count.mpr ⟨k, hk, k', hk', hbit, hi, hj⟩⟩
    · exact .inl (two_le_count.mpr ⟨r, hr, r', hr', hgroup, count_pos_iff.mpr ⟨k, hk, hi⟩,
        count_pos_iff.mpr ⟨k', hk', hj⟩⟩)
  · rintro (hgroups | ⟨r, hr, hsize⟩)
    · obtain ⟨r, hr, r', hr', hne, hpos, hpos'⟩ := two_le_count.mp hgroups
      obtain ⟨k, -, hk⟩ := count_pos_iff.mp hpos
      obtain ⟨k', -, hk'⟩ := count_pos_iff.mp hpos'
      exact ⟨_, (position_mem_inBin hP hp).mpr hk, _, (position_mem_inBin hP hp).mpr hk',
        fun h => hne (position_inj hp hr hr' h).1⟩
    · obtain ⟨k, -, k', -, hne, hk, hk'⟩ := two_le_count.mp hsize
      exact ⟨_, (position_mem_inBin hP hp).mpr hk, _, (position_mem_inBin hP hp).mpr hk',
        fun h => hne (position_inj hp hr hr h).2⟩

end Position

/-! ## The two cycles -/

section Cycles
variable {s : Spaced2lvlPenc P} {oneHot oneHot' : BitVec P.inputWidth} {p : Nat}

theorem clog2_two_pow (a : Nat) : clog2 (2 ^ (a + 1)) = a + 1 := by
  have hpos := Nat.two_pow_pos a
  rw [clog2, if_neg (by omega)]
  have hne : 2 ^ (a + 1) - 1 ≠ 0 := by omega
  have hlog : (2 ^ (a + 1) - 1).log2 = a := (Nat.log2_eq_iff hne).mpr ⟨by omega, by omega⟩
  rw [hlog]

/-- The widths are those of the sizes. -/
theorem two_pow_widths (hP : P.Regular) :
    2 ^ P.penc1Width = P.penc1Size ∧ 2 ^ P.penc2Width = P.penc2Size ∧
      2 ^ P.binWidth = P.binCount ∧ 2 ^ P.outputWidth = P.largeBlock := by
  obtain ⟨a, ha⟩ := hP.penc1Size
  obtain ⟨b, hb⟩ := hP.penc2Size
  obtain ⟨c, hc⟩ := hP.binCount
  have hlarge : P.largeBlock = 2 ^ (c + 1 + (a + 1) + b + 1) := by
    rw [PencParams.largeBlock, ha, hb, hc, ← Nat.pow_add, ← Nat.pow_add, Nat.add_assoc _ b]
  refine ⟨?_, ?_, ?_, ?_⟩
  · rw [PencParams.penc1Width, ha, clog2_two_pow]
  · rw [PencParams.penc2Width, hb, clog2_two_pow]
  · rw [PencParams.binWidth, hc, clog2_two_pow]
  · rw [PencParams.outputWidth, hlarge, clog2_two_pow]

theorem position_lt {r k : Nat} (hp : p < P.binCount) (hr : r < P.penc2Size)
    (hk : k < P.penc1Size) : position P p r k < P.largeBlock := by
  have hgroup : k * P.penc2Size + r < P.penc1Size * P.penc2Size :=
    calc k * P.penc2Size + r < k * P.penc2Size + P.penc2Size := Nat.add_lt_add_left hr _
      _ = (k + 1) * P.penc2Size := (Nat.succ_mul _ _).symm
      _ ≤ P.penc1Size * P.penc2Size := Nat.mul_le_mul_right _ hk
  rw [← position_div hp, Nat.div_lt_iff_lt_mul (Nat.zero_lt_of_lt hp)] at hgroup
  rwa [PencParams.largeBlock, Nat.mul_assoc, Nat.mul_comm]

/-- The three fields of an index put together. -/
theorem toNat_fields (hP : P.Regular) {r k : Nat} (hp : p < P.binCount) (hr : r < P.penc2Size)
    (hk : k < P.penc1Size) :
    ((BitVec.ofNat P.penc1Width k ++ BitVec.ofNat P.penc2Width r ++
      BitVec.ofNat P.binWidth p).setWidth P.outputWidth).toNat = position P p r k := by
  obtain ⟨h1, h2, h3, h4⟩ := two_pow_widths hP
  rw [BitVec.toNat_setWidth, Lanes.toNat_append, Lanes.toNat_append, BitVec.toNat_ofNat,
    BitVec.toNat_ofNat, BitVec.toNat_ofNat, h1, h2, h3, h4, Nat.mod_eq_of_lt hk,
    Nat.mod_eq_of_lt hr, Nat.mod_eq_of_lt hp, ← position_div hp]
  have hsplit := Nat.div_add_mod' (position P p r k) P.binCount
  rw [position_mod hp] at hsplit
  rw [hsplit, Nat.mod_eq_of_lt (position_lt hp hr hk)]

variable (s oneHot p) in
/-- The first stage finds the nonempty groups. -/
theorem penc2Input_next (r : Nat) :
    (s.next ⟨false, oneHot⟩).penc2Input p r = decide (0 < groupSize oneHot p r) := by
  rw [Bool.eq_iff_iff, decide_eq_true_eq, groupSize, count_pos_iff]
  change (List.range P.penc1Size).any (groupBit oneHot p r) = true ↔ _
  rw [List.any_eq_true]
  exact exists_congr fun k => and_congr_left' List.mem_range

variable (s oneHot p) in
theorem lvl1Error_next (r : Nat) :
    (s.next ⟨false, oneHot⟩).lvl1Error (r * P.binCount + p) =
      decide (1 < groupSize oneHot p r % 2 ^ P.penc1Width) := by
  change decide (1 < (lvl1Penc (P := P) (groupBit oneHot p r)).ones1.toNat) = _
  rw [ones1_eq, BitVec.toNat_ofNat]
  rfl

variable (s oneHot p) in
theorem lvl1Index_next (r : Nat) :
    (s.next ⟨false, oneHot⟩).lvl1Index (r * P.binCount + p) =
      BitVec.ofNat P.penc1Width (first P.penc1Size (groupBit oneHot p r)) :=
  penc1Output_eq _

/-- The first nonempty group of a bin. -/
def firstGroup (oneHot : BitVec P.inputWidth) (p : Nat) : Nat :=
  first P.penc2Size fun r => decide (0 < groupSize oneHot p r)

theorem valid_next_next (hP : P.Regular) (hp : p < P.binCount) :
    ((s.next ⟨false, oneHot⟩).next ⟨false, oneHot'⟩).valid p = true ↔
      (inBin oneHot p).Nonempty := by
  rw [inBin_nonempty hP hp]
  change (List.range P.penc2Size).any ((s.next ⟨false, oneHot⟩).penc2Input p) = true ↔ _
  rw [List.any_eq_true]
  refine exists_congr fun r => ?_
  rw [List.mem_range, penc2Input_next, decide_eq_true_eq]

theorem error_next_next :
    ((s.next ⟨false, oneHot⟩).next ⟨false, oneHot'⟩).error p = true ↔
      1 < groupCount oneHot p % 2 ^ P.penc2Width ∨
        1 < groupSize oneHot p (firstGroup oneHot p) % 2 ^ P.penc1Width := by
  have hinput : (s.next ⟨false, oneHot⟩).penc2Input p =
      fun r => decide (0 < groupSize oneHot p r) := funext (penc2Input_next s oneHot p)
  change (decide (1 < ((s.next ⟨false, oneHot⟩).lvl2Penc p).ones2.toNat) ||
    ((s.next ⟨false, oneHot⟩).lvl2Penc p).lvl1SelectedError) = true ↔ _
  rw [ones2_eq, lvl1SelectedError_eq, lvl1Error_next, hinput, Bool.or_eq_true, decide_eq_true_eq,
    decide_eq_true_eq, BitVec.toNat_ofNat]
  simp only [decide_eq_true_eq]
  rfl

/-- The index is the position of the first bit of the first nonempty group. -/
theorem toNat_index_next_next (hP : P.Regular) (hp : p < P.binCount)
    (hr : firstGroup oneHot p < P.penc2Size)
    (hk : first P.penc1Size (groupBit oneHot p (firstGroup oneHot p)) < P.penc1Size) :
    (((s.next ⟨false, oneHot⟩).next ⟨false, oneHot'⟩).index p).toNat =
      position P p (firstGroup oneHot p)
        (first P.penc1Size (groupBit oneHot p (firstGroup oneHot p))) := by
  have hinput : (s.next ⟨false, oneHot⟩).penc2Input p =
      fun r => decide (0 < groupSize oneHot p r) := funext (penc2Input_next s oneHot p)
  rw [← toNat_fields hP hp hr hk]
  change (BitVec.setWidth P.outputWidth (((s.next ⟨false, oneHot⟩).lvl2Penc p).lvl1SelectedIndex ++
    ((s.next ⟨false, oneHot⟩).lvl2Penc p).penc2Output ++ BitVec.ofNat P.binWidth p)).toNat = _
  rw [lvl1SelectedIndex_eq, penc2Output_eq, hinput, lvl1Index_next]
  rfl

end Cycles

/-- **The law of the encoder, and when it holds.**  Two cycles after an input, outside reset, the
valid flag of each bin tells whether some bit of the bin is set, and the index is the position of
a single set bit.  The error flag tells whether two bits are set, except exactly when a counter
wraps. -/
theorem law_iff_not_overflows (hP : P.Regular) (s : Spaced2lvlPenc P)
    (oneHot oneHot' : BitVec P.inputWidth) (p : Nat) (hp : p < P.binCount) :
    let s' := (s.next ⟨false, oneHot⟩).next ⟨false, oneHot'⟩
    (s'.valid p = true ↔ (inBin oneHot p).Nonempty) ∧
    ((s'.error p = true ↔ 2 ≤ (inBin oneHot p).card) ↔ ¬ Overflows oneHot p) ∧
    ∀ i, inBin oneHot p = {i} → (s'.index p).toNat = i := by
  intro s'
  refine ⟨valid_next_next hP hp, ?_, ?_⟩
  · obtain ⟨a, ha⟩ := hP.penc1Size
    obtain ⟨b, hb⟩ := hP.penc2Size
    obtain ⟨h1, h2, -⟩ := two_pow_widths hP
    have hright := error_right_iff (a := a) (b := b) (f := groupSize oneHot p)
      (fun r => ha ▸ Nat.count_le _)
    rw [error_next_next, two_le_card_inBin hP hp, Overflows, h1, h2, groupCount, firstGroup,
      ha, hb]
    exact hright
  · intro i hi
    have hmem : i ∈ inBin oneHot p := hi ▸ Finset.mem_singleton_self i
    have hsome : ∃ r < P.penc2Size, decide (0 < groupSize oneHot p r) = true :=
      ((inBin_nonempty hP hp).mp ⟨i, hmem⟩).imp fun r h => ⟨h.1, decide_eq_true h.2⟩
    obtain ⟨hr, hsize⟩ := first_of_exists hsome
    obtain ⟨hk, hbit⟩ := first_of_exists (count_pos_iff.mp (of_decide_eq_true hsize))
    rw [toNat_index_next_next hP hp hr hk]
    have hpos := (position_mem_inBin hP hp).mpr hbit
    rw [hi, Finset.mem_singleton] at hpos
    exact hpos

/-- Two bins of four groups of four bits, for 30 inputs. -/
def sampleParams : PencParams := ⟨30, 4, 4, 2⟩

def sampleStart : Spaced2lvlPenc sampleParams :=
  ⟨fun _ => 0, fun _ => false, fun _ => false, fun _ => 0, fun _ => false, fun _ => false⟩

/-- Bits 0 and 8 are in the first group of the first bin. -/
theorem law_iff_not_overflows_two_bits :
    (inBin (P := sampleParams) 0x101 0).card = 2 ∧ ¬ Overflows (P := sampleParams) 0x101 0 ∧
      ((sampleStart.next ⟨false, 0x101⟩).next ⟨false, 0⟩).error 0 = true := by
  have hcard : (inBin (P := sampleParams) 0x101 0).card = 2 := by decide +kernel
  have hover : ¬ Overflows (P := sampleParams) 0x101 0 := by decide +kernel
  refine ⟨hcard, hover, ?_⟩
  have hP : sampleParams.Regular := ⟨⟨1, rfl⟩, ⟨1, rfl⟩, ⟨0, rfl⟩, by decide⟩
  obtain ⟨-, herror, -⟩ :=
    law_iff_not_overflows hP sampleStart 0x101 0 0 (by decide)
  exact (herror.mpr hover).mpr hcard.ge

/-- With all four bits of a group set the counter is zero again, and so is the error flag. -/
theorem error_lost_full_group :
    (inBin (P := sampleParams) 0x1010101 0).card = 4 ∧
      ((sampleStart.next ⟨false, 0x1010101⟩).next ⟨false, 0⟩).error 0 = false := by
  decide +kernel

end Spaced2lvlPenc

end Rosebud
