import Mathlib.Algebra.Group.Nat.Defs
import Mathlib.Data.List.Basic
import Mathlib.Data.List.Range

/-! # Byte lanes of a word

A word of `8 * W` bits is `W` byte lanes, lane 0 the least significant, and a
strobe of `W` bits says which of them carry data.  Concatenations and shifts by
whole bytes move lanes; the lemmas here say where, so that the developments above
never look at a single bit.
-/
namespace Lanes

/-- Lane `i` of a word. -/
def lane {n : Nat} (x : BitVec n) (i : Nat) : BitVec 8 := x.extractLsb' (8 * i) 8

/-- The lanes `i`, `i + 1`, ..., `i + k - 1` of a word. -/
def lanes {n : Nat} (x : BitVec n) (i k : Nat) : List (BitVec 8) :=
  (List.range k).map fun j => lane x (i + j)

/-- The strobe of the `k` lowest lanes. -/
def lowMask (W k : Nat) : BitVec W := BitVec.ofNat W (2 ^ k - 1)

/-- The bytes a strobe selects, lowest lane first. -/
def kept {n W : Nat} (x : BitVec n) (strb : BitVec W) : List (BitVec 8) :=
  (List.range W).filterMap fun i => if strb.getLsbD i then some (lane x i) else none

/-- The word with lane `i` for each `i < W` given by `f`. -/
def ofLanes : (W : Nat) → (Nat → BitVec 8) → BitVec (8 * W)
  | 0, _ => 0
  | W + 1, f => (f W ++ ofLanes W f).cast (by omega)

/-- The word with `v` written over its bits from `lo` on; what goes beyond the word is lost. -/
def put {m n : Nat} (x : BitVec n) (lo : Nat) (v : BitVec m) : BitVec n :=
  (x &&& ~~~((BitVec.allOnes m).setWidth n <<< lo)) ||| (v.setWidth n <<< lo)

/-! ## Where concatenations and shifts move a lane -/

variable {m n i : Nat}

theorem lane_append_low (x : BitVec n) (y : BitVec (8 * m)) (h : i < m) :
    lane (x ++ y) i = lane y i := by
  ext j hj
  have hlt : 8 * i + j < 8 * m := by omega
  simp [lane, BitVec.getLsbD_append, hlt]

/-- A concatenation as a number. -/
theorem toNat_append (x : BitVec m) (y : BitVec n) :
    (x ++ y).toNat = x.toNat * 2 ^ n + y.toNat := by
  rw [BitVec.toNat_append, ← Nat.shiftLeft_add_eq_or_of_lt y.isLt, Nat.shiftLeft_eq]

theorem lane_append_high (x : BitVec n) (y : BitVec (8 * m)) (h : m ≤ i) :
    lane (x ++ y) i = lane x (i - m) := by
  ext j hj
  have hge : ¬ 8 * i + j < 8 * m := by omega
  have hsub : 8 * i + j - 8 * m = 8 * (i - m) + j := by omega
  simp [lane, BitVec.getLsbD_append, hge, hsub]

theorem lane_setWidth (x : BitVec n) (h : i < m) : lane (x.setWidth (8 * m)) i = lane x i := by
  ext j hj
  have hlt : 8 * i + j < 8 * m := by omega
  simp [lane, hlt]

theorem lane_ushiftRight (x : BitVec n) (k i : Nat) : lane (x >>> (8 * k)) i = lane x (k + i) := by
  ext j hj
  have hadd : 8 * k + (8 * i + j) = 8 * (k + i) + j := by omega
  simp [lane, hadd]

theorem lane_extractLsb' (x : BitVec n) (k : Nat) (h : i < m) :
    lane (x.extractLsb' (8 * k) (8 * m)) i = lane x (k + i) := by
  ext j hj
  have hlt : 8 * i + j < 8 * m := by omega
  have hadd : 8 * k + (8 * i + j) = 8 * (k + i) + j := by omega
  simp [lane, hlt, hadd]

theorem lane_cast (h : m = n) (x : BitVec m) (i : Nat) : lane (x.cast h) i = lane x i := by
  rfl

theorem lane_zero_of_byte (x : BitVec 8) : lane x 0 = x := by
  simp [lane]

theorem lane_ofLanes {W : Nat} (f : Nat → BitVec 8) (h : i < W) : lane (ofLanes W f) i = f i := by
  induction W with
  | zero => exact absurd h (Nat.not_lt_zero i)
  | succ W ih =>
    rw [ofLanes, lane_cast]
    rcases Nat.lt_succ_iff_lt_or_eq.mp h with hlt | rfl
    · rw [lane_append_low _ _ hlt, ih hlt]
    · rw [lane_append_high _ _ (Nat.le_refl i), Nat.sub_self, lane_zero_of_byte]

theorem getLsbD_put (x : BitVec n) (lo : Nat) (v : BitVec m) (hi : i < n) :
    (put x lo v).getLsbD i = if lo ≤ i ∧ i < lo + m then v.getLsbD (i - lo) else x.getLsbD i := by
  by_cases hlo : lo ≤ i
  · have hge : ¬ i < lo := by omega
    by_cases hm : i < lo + m
    · have hbit : i - lo < m := by omega
      simp [put, hi, hlo, hge, hm, hbit]
    · have hbit : ¬ i - lo < m := by omega
      have hv : v.getLsbD (i - lo) = false := BitVec.getLsbD_of_ge v _ (by omega)
      simp [put, hi, hlo, hm, hbit, hv]
  · have hlt : i < lo := by omega
    simp [put, hi, hlo, hlt]

/-- Lanes that are written over, and lanes that are not. -/
theorem lane_put (x : BitVec (8 * n)) (o : Nat) (v : BitVec (8 * m)) (hi : i < n) :
    lane (put x (8 * o) v) i = if o ≤ i ∧ i < o + m then lane v (i - o) else lane x i := by
  ext j hj
  have hbit : (8 * o ≤ 8 * i + j ∧ 8 * i + j < 8 * o + 8 * m) ↔ (o ≤ i ∧ i < o + m) := by omega
  have hsub : o ≤ i → 8 * i + j - 8 * o = 8 * (i - o) + j := by omega
  rw [lane, BitVec.getElem_extractLsb', getLsbD_put _ _ _ (by omega)]
  by_cases ho : o ≤ i ∧ i < o + m
  · rw [if_pos (hbit.mpr ho), if_pos ho, hsub ho.1, lane, BitVec.getElem_extractLsb']
  · rw [if_neg fun h => ho (hbit.mp h), if_neg ho, lane, BitVec.getElem_extractLsb']

/-! ## Strobes -/

theorem getLsbD_lowMask (W k i : Nat) :
    (lowMask W k).getLsbD i = (decide (i < W) && decide (i < k)) := by
  simp [lowMask, BitVec.getLsbD_ofNat, Nat.testBit_two_pow_sub_one]

@[simp] theorem getElem_lowMask {W k i : Nat} (h : i < W) :
    (lowMask W k)[i] = decide (i < k) := by
  rw [← BitVec.getLsbD_eq_getElem, getLsbD_lowMask, decide_eq_true h, Bool.true_and]

@[simp] theorem lowMask_self (W : Nat) : lowMask W W = BitVec.allOnes W := by
  ext i hi
  simp [hi]

@[simp] theorem lowMask_zero (W : Nat) : lowMask W 0 = 0#W := by
  simp [lowMask]

/-- A part of a strobe of the lowest lanes. -/
theorem extract_lowMask {W h m : Nat} (k : Nat) (hle : h + m ≤ W) :
    (lowMask W k).extractLsb' h m = lowMask m (k - h) := by
  ext i hi
  have hiW : h + i < W := by omega
  have hiff : h + i < k ↔ i < k - h := by omega
  simp [hiW, hiff]

/-- The low part of a strobe of the lowest lanes. -/
theorem extract_lowMask_low {W h : Nat} (k : Nat) (hle : h ≤ W) :
    (lowMask W k).extractLsb' 0 h = lowMask h k :=
  extract_lowMask k (by omega)

/-- The part of a strobe of the lowest lanes from lane `h` up. -/
theorem extract_lowMask_high {W h : Nat} (k : Nat) (hle : h ≤ W) :
    (lowMask W k).extractLsb' h (W - h) = lowMask (W - h) (k - h) :=
  extract_lowMask k (by omega)

/-- A strobe on top of a full one. -/
theorem append_lowMask_full {W h m : Nat} (k : Nat) (hW : m + h = W) :
    (lowMask h k ++ lowMask m m).setWidth W = lowMask W (m + k) := by
  ext i hi
  rw [BitVec.getElem_setWidth, BitVec.getLsbD_append]
  by_cases him : i < m
  · have hik : i < m + k := by omega
    simp [him, hik]
  · have hlt : i - m < h := by omega
    have hiff : i - m < k ↔ i < m + k := by omega
    simp [him, hlt, hiff]

/-- A strobe with nothing on top of it. -/
theorem append_lowMask_zero {W h m k : Nat} (hW : m + h = W) (hk : k ≤ m) :
    (0#h ++ lowMask m k).setWidth W = lowMask W k := by
  ext i hi
  rw [BitVec.getElem_setWidth, BitVec.getLsbD_append]
  by_cases him : i < m
  · simp [him]
  · have hik : ¬ i < k := by omega
    simp [him, hik]

theorem lowMask_min (W k : Nat) : lowMask W (min k W) = lowMask W k := by
  ext i hi
  have hiff : i < min k W ↔ i < k := by omega
  simp [hiff]

theorem lowMask_ne_zero {W k : Nat} (hk : 0 < k) (hW : 0 < W) : lowMask W k ≠ 0#W := by
  intro h
  have := congrArg (fun x => x.getLsbD 0) h
  simp [hk, hW] at this

/-! ## Lists of lanes -/

@[simp] theorem length_lanes (x : BitVec n) (i k : Nat) : (lanes x i k).length = k := by
  simp [lanes]

@[simp] theorem lanes_zero (x : BitVec n) (i : Nat) : lanes x i 0 = [] := rfl

theorem lanes_add (x : BitVec n) (i k l : Nat) :
    lanes x i (k + l) = lanes x i k ++ lanes x (i + k) l := by
  simp [lanes, List.range_add, Nat.add_assoc, Function.comp_def]

theorem lanes_split (x : BitVec n) {k l : Nat} (h : k ≤ l) :
    lanes x 0 l = lanes x 0 k ++ lanes x k (l - k) := by
  have hadd := lanes_add x 0 k (l - k)
  rwa [Nat.add_sub_cancel' h, Nat.zero_add] at hadd

theorem take_lanes (x : BitVec n) (i : Nat) {k l : Nat} (h : k ≤ l) :
    (lanes x i l).take k = lanes x i k := by
  obtain ⟨d, rfl⟩ := Nat.exists_eq_add_of_le h
  rw [lanes_add, List.take_append_of_le_length (by simp), List.take_of_length_le (by simp)]

theorem drop_lanes (x : BitVec n) (i k l : Nat) :
    (lanes x i l).drop k = lanes x (i + k) (l - k) := by
  rcases Nat.le_total k l with h | h
  · obtain ⟨d, rfl⟩ := Nat.exists_eq_add_of_le h
    rw [lanes_add, List.drop_append_of_le_length (by simp), List.drop_of_length_le (by simp)]
    simp
  · rw [List.drop_of_length_le (by simpa using h), Nat.sub_eq_zero_of_le h, lanes_zero]

theorem lanes_congr {x : BitVec m} {y : BitVec n} {i j k : Nat}
    (h : ∀ l, l < k → lane x (i + l) = lane y (j + l)) : lanes x i k = lanes y j k := by
  refine List.map_congr_left fun l hl => h l ?_
  exact List.mem_range.mp hl

/-- The lanes of a concatenation, from the lower part into the upper. -/
theorem lanes_append {h m W k : Nat} (x : BitVec (8 * h)) (y : BitVec (8 * m)) (hk : m + k ≤ W) :
    lanes ((x ++ y).setWidth (8 * W)) 0 (m + k) = lanes y 0 m ++ lanes x 0 k := by
  rw [lanes_add]
  congr 1
  · refine lanes_congr fun l hl => ?_
    rw [lane_setWidth _ (by omega), lane_append_low _ _ (by omega)]
  · refine lanes_congr fun l hl => ?_
    rw [lane_setWidth _ (by omega), lane_append_high _ _ (by omega)]
    congr 1
    omega

/-- The lanes of a concatenation that lie in the lower part. -/
theorem lanes_append_low {h m W k : Nat} (x : BitVec (8 * h)) (y : BitVec (8 * m)) (hk : k ≤ m)
    (hW : k ≤ W) : lanes ((x ++ y).setWidth (8 * W)) 0 k = lanes y 0 k := by
  refine lanes_congr fun l hl => ?_
  rw [lane_setWidth _ (by omega), lane_append_low _ _ (by omega)]

theorem lanes_extractLsb' (x : BitVec n) (i : Nat) {k : Nat} (hk : k ≤ m) :
    lanes (x.extractLsb' (8 * i) (8 * m)) 0 k = lanes x i k := by
  refine lanes_congr fun l hl => ?_
  rw [lane_extractLsb' _ _ (by omega), Nat.zero_add]

/-- The lanes of a word whose lanes come in the other order. -/
theorem lanes_ofLanes_reverse {n W : Nat} (x : BitVec n) {i k : Nat} (h : i + k ≤ W) :
    (lanes (ofLanes W fun j => lane x (W - 1 - j)) i k).reverse = lanes x (W - (i + k)) k := by
  unfold lanes
  rw [← List.map_reverse, List.range_eq_range', List.reverse_range', List.map_map,
    ← List.range_eq_range']
  refine List.map_congr_left fun l hl => ?_
  have hlt := List.mem_range.mp hl
  simp only [Function.comp_apply]
  rw [lane_ofLanes _ (by omega)]
  congr 1
  omega

/-- A strobe of the lowest lanes keeps exactly those. -/
theorem kept_lowMask {n W k : Nat} (x : BitVec n) (h : k ≤ W) :
    kept x (lowMask W k) = lanes x 0 k := by
  obtain ⟨d, rfl⟩ := Nat.exists_eq_add_of_le h
  unfold kept lanes
  rw [List.range_add, List.filterMap_append]
  have hlow : (List.range k).filterMap (fun i =>
      if (lowMask (k + d) k).getLsbD i then some (lane x i) else none) =
      (List.range k).map fun j => lane x (0 + j) := by
    rw [← List.filterMap_eq_map]
    refine List.filterMap_congr fun i hi => ?_
    have hik := List.mem_range.mp hi
    have hid : i < k + d := by omega
    simp [hik, hid]
  have hhigh : ((List.range d).map (k + ·)).filterMap (fun i =>
      if (lowMask (k + d) k).getLsbD i then some (lane x i) else none) = [] := by
    rw [List.filterMap_eq_nil_iff]
    intro i hi
    obtain ⟨j, -, rfl⟩ := List.mem_map.mp hi
    simp [getLsbD_lowMask]
  rw [hlow, hhigh, List.append_nil]

theorem kept_allOnes {n W : Nat} (x : BitVec n) :
    kept x (BitVec.allOnes W) = lanes x 0 W := by
  rw [← lowMask_self, kept_lowMask x (Nat.le_refl W)]

end Lanes
