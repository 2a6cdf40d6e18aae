import Rosebud.ByteStore

/-! # Byte strings out of a memory of words

A memory of words of `2 ^ m` byte lanes answers a read with a whole word.  A byte
string that starts anywhere in a word is therefore read in pieces too: `load` is the
string, `byteAt` its single bytes, and `lanes_window_load` says that the word between
two neighbouring memory words holds the bytes from their common offset on.
-/
namespace MemoryWords
open Lanes ByteStore

variable {A m : Nat}

/-- The address of the word an address lies in. -/
def align (m : Nat) (a : BitVec A) : BitVec A := (a >>> m) <<< m

/-- The `k`-th word from the one that `a` lies in. -/
def wordAddr (m : Nat) (a : BitVec A) (k : Nat) : BitVec A :=
  align m a + BitVec.ofNat A (k * 2 ^ m)

/-- The byte at an address. -/
def byteAt (mem : BitVec A → BitVec (8 * 2 ^ m)) (a : BitVec A) : BitVec 8 :=
  lane (mem (align m a)) (a.toNat % 2 ^ m)

/-- The `k` bytes from an address on. -/
def load (mem : BitVec A → BitVec (8 * 2 ^ m)) (a : BitVec A) (k : Nat) : List (BitVec 8) :=
  (List.range k).map fun i => byteAt mem (a + BitVec.ofNat A i)

variable {mem : BitVec A → BitVec (8 * 2 ^ m)}

@[simp] theorem length_load (a : BitVec A) (k : Nat) : (load mem a k).length = k := by
  simp [load]

theorem load_add (a : BitVec A) (k l : Nat) :
    load mem a (k + l) = load mem a k ++ load mem (a + BitVec.ofNat A k) l := by
  simp [load, List.range_add, Function.comp_def, BitVec.ofNat_add, BitVec.add_assoc]

theorem take_load (a : BitVec A) {k l : Nat} (h : k ≤ l) :
    (load mem a l).take k = load mem a k := by
  obtain ⟨d, rfl⟩ := Nat.exists_eq_add_of_le h
  rw [load_add, List.take_left' (length_load a k)]

theorem drop_load (a : BitVec A) {k l : Nat} (h : k ≤ l) :
    (load mem a l).drop k = load mem (a + BitVec.ofNat A k) (l - k) := by
  obtain ⟨d, rfl⟩ := Nat.exists_eq_add_of_le h
  rw [load_add, List.drop_left' (length_load a k), Nat.add_sub_cancel_left]

/-! ## Addresses -/

section Address
variable (hm : m ≤ A) (a : BitVec A) (k : Nat)
include hm

/-- An address is a number of words and an offset, the number up to the size of the
memory. -/
theorem toNat_add_offset {i : Nat} (hi : i < 2 ^ m) : (wordAddr m a k + BitVec.ofNat A i).toNat =
      i + 2 ^ m * ((a.toNat / 2 ^ m + k) % 2 ^ (A - m)) := by
  have hpow : 2 ^ A = 2 ^ m * 2 ^ (A - m) := by rw [← Nat.pow_add, Nat.add_sub_cancel' hm]
  have hpos := Nat.two_pow_pos m
  have halign : (align m a).toNat = a.toNat / 2 ^ m * 2 ^ m := by
    rw [align, BitVec.toNat_shiftLeft, BitVec.toNat_ushiftRight, Nat.shiftRight_eq_div_pow,
      Nat.shiftLeft_eq]
    have hle := Nat.div_mul_le_self a.toNat (2 ^ m)
    exact Nat.mod_eq_of_lt (Nat.lt_of_le_of_lt hle a.isLt)
  rw [wordAddr, BitVec.toNat_add, BitVec.toNat_add, halign, BitVec.toNat_ofNat,
    BitVec.toNat_ofNat, Nat.add_mod_mod, Nat.mod_add_mod, Nat.add_right_comm, Nat.add_mod_mod]
  rw [show a.toNat / 2 ^ m * 2 ^ m + i + k * 2 ^ m = i + 2 ^ m * (a.toNat / 2 ^ m + k) by
    rw [Nat.add_right_comm, ← Nat.add_mul, Nat.mul_comm, Nat.add_comm], hpow, Nat.mod_mul,
    Nat.add_mul_mod_self_left, Nat.mod_eq_of_lt hi, Nat.add_mul_div_left _ _ hpos,
    Nat.div_eq_of_lt hi, Nat.zero_add]

/-- The bytes of one word. -/
theorem byteAt_word {i : Nat} (hi : i < 2 ^ m) :
    byteAt mem (wordAddr m a k + BitVec.ofNat A i) = lane (mem (wordAddr m a k)) i := by
  have hpos := Nat.two_pow_pos m
  have hsum := toNat_add_offset hm a k hi
  have hword := toNat_add_offset hm a k hpos
  have hoff : (wordAddr m a k + BitVec.ofNat A i).toNat % 2 ^ m = i := by
    rw [hsum, Nat.add_mul_mod_self_left, Nat.mod_eq_of_lt hi]
  have halign : align m (wordAddr m a k + BitVec.ofNat A i) = wordAddr m a k := by
    apply BitVec.eq_of_toNat_eq
    rw [BitVec.add_zero] at hword
    rw [hword, align, BitVec.toNat_shiftLeft, BitVec.toNat_ushiftRight, hsum,
      Nat.shiftRight_eq_div_pow, Nat.shiftLeft_eq, Nat.add_mul_div_left _ _ hpos,
      Nat.div_eq_of_lt hi, Nat.zero_add, Nat.zero_add, Nat.mul_comm]
    exact Nat.mod_eq_of_lt (by omega)
  rw [byteAt, hoff, halign]

theorem lanes_word {i n : Nat} (hi : i + n ≤ 2 ^ m) :
    lanes (mem (wordAddr m a k)) i n = load mem (wordAddr m a k + BitVec.ofNat A i) n := by
  refine List.map_congr_left fun j hj => ?_
  have hjn := List.mem_range.mp hj
  rw [← byteAt_word hm a k (show i + j < 2 ^ m by omega), BitVec.ofNat_add, BitVec.add_assoc]

/-- An address is its word and its offset in it. -/
theorem wordAddr_add_offset :
    wordAddr m a k + BitVec.ofNat A (a.toNat % 2 ^ m) = a + BitVec.ofNat A (k * 2 ^ m) := by
  have hbase : align m a + BitVec.ofNat A (a.toNat % 2 ^ m) = a := by
    apply BitVec.eq_of_toNat_eq
    have h := toNat_add_offset hm a 0 (Nat.mod_lt a.toNat (Nat.two_pow_pos m))
    rw [wordAddr, Nat.zero_mul, BitVec.add_zero, Nat.add_zero] at h
    have hquot : a.toNat / 2 ^ m < 2 ^ (A - m) := by
      rw [Nat.div_lt_iff_lt_mul (Nat.two_pow_pos m), ← Nat.pow_add, Nat.sub_add_cancel hm]
      exact a.isLt
    rw [h, Nat.mod_eq_of_lt hquot, Nat.mod_add_div]
  rw [wordAddr, BitVec.add_assoc, BitVec.add_comm (BitVec.ofNat A _), ← BitVec.add_assoc, hbase]

/-- **The word between two neighbours** holds the bytes from their offset on. -/
theorem lanes_window_load {n : Nat} (hn : n ≤ 2 ^ m) :
    lanes (window (mem (wordAddr m a (k + 1))) (mem (wordAddr m a k)) (a.toNat % 2 ^ m)) 0 n =
      load mem (a + BitVec.ofNat A (k * 2 ^ m)) n := by
  have hlt := Nat.mod_lt a.toNat (Nat.two_pow_pos m)
  rcases Nat.le_total (a.toNat % 2 ^ m + n) (2 ^ m) with hle | hge
  · rw [lanes_window_older (by omega), lanes_word hm a k (by omega), Nat.add_zero,
      wordAddr_add_offset hm]
  · obtain ⟨l, rfl⟩ : ∃ l, n = 2 ^ m - a.toNat % 2 ^ m + l :=
      ⟨n - (2 ^ m - a.toNat % 2 ^ m), by omega⟩
    rw [lanes_window (by omega) (by omega), load_add, lanes_word hm a k (by omega),
      wordAddr_add_offset hm, lanes_word hm a (k + 1) (by omega),
      BitVec.add_zero]
    congr 2
    rw [← wordAddr_add_offset hm a k, BitVec.add_assoc, ← BitVec.ofNat_add,
      Nat.add_sub_cancel' (Nat.le_of_lt hlt), wordAddr, wordAddr, Nat.succ_mul, BitVec.ofNat_add,
      BitVec.add_assoc]

/-- Bytes that lie in the older word alone. -/
theorem lanes_window_older_load (newer : BitVec (8 * 2 ^ m)) {n : Nat}
    (hn : a.toNat % 2 ^ m + n ≤ 2 ^ m) :
    lanes (window newer (mem (wordAddr m a k)) (a.toNat % 2 ^ m)) 0 n =
      load mem (a + BitVec.ofNat A (k * 2 ^ m)) n := by
  rw [lanes_window_older (by omega), lanes_word hm a k (by omega), Nat.add_zero,
    wordAddr_add_offset hm]

end Address

end MemoryWords
