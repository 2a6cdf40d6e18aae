import Mathlib.Data.List.GetD
import Rosebud.Loops

/-! # Toeplitz hashes

The Toeplitz hash of a bit string under a key is the exclusive or of the windows of the key that
start at the places of the set bits.  Bits are counted from the most significant, in the key and
in each byte of a string.

Zeros at the end of a string contribute nothing (`hashBits_of_clear`), and the hash is linear in
the string (`hash_xor`).
-/
namespace Toeplitz
open Loops

variable {w : Nat} (m : Nat) (key : BitVec w)

/-- The `m` bits of the key from bit `i` on. -/
def window (i : Nat) : BitVec m := (key <<< i).extractLsb' (w - m) m

/-- The hash of the first `n` bits of a string. -/
def hashBits (bits : Nat → Bool) (n : Nat) : BitVec m :=
  forLt n (fun h i => if bits i then h ^^^ window m key i else h) 0

/-- Bit `i` of a string of bytes. -/
def bitAt (bs : List (BitVec 8)) (i : Nat) : Bool := (bs.getD (i / 8) 0).getMsbD (i % 8)

/-- The hash of a string of bytes. -/
def hash (bs : List (BitVec 8)) : BitVec m := hashBits m key (bitAt bs) (8 * bs.length)

variable {m key}

theorem hashBits_succ (bits : Nat → Bool) (n : Nat) :
    hashBits m key bits (n + 1) =
      if bits n then hashBits m key bits n ^^^ window m key n else hashBits m key bits n :=
  forLt_succ _ _ _

theorem hashBits_congr {f g : Nat → Bool} {n : Nat} (h : ∀ i < n, f i = g i) :
    hashBits m key f n = hashBits m key g n :=
  forLt_congr (fun s i hi => by rw [h i hi]) 0

theorem hashBits_of_clear {f : Nat → Bool} {n k : Nat}
    (h : ∀ i, n ≤ i → i < n + k → f i = false) :
    hashBits m key f (n + k) = hashBits m key f n := by
  induction k with
  | zero => rfl
  | succ k ih =>
    have hclear : f (n + k) = false := h (n + k) (Nat.le_add_right n k) (Nat.lt_succ_self _)
    rw [← Nat.add_assoc, hashBits_succ, hclear, if_neg Bool.false_ne_true,
      ih fun i hi hlt => h i hi (Nat.lt_succ_of_lt hlt)]

/-- **The hash is linear.** -/
theorem hashBits_xor (f g : Nat → Bool) (n : Nat) :
    hashBits m key (fun i => f i ^^ g i) n = hashBits m key f n ^^^ hashBits m key g n := by
  induction n with
  | zero => exact (BitVec.xor_zero).symm
  | succ n ih =>
    rw [hashBits_succ, hashBits_succ, hashBits_succ, ih]
    cases f n <;> cases g n
    · rfl
    · exact BitVec.xor_assoc _ _ _
    · change _ ^^^ _ ^^^ window m key n = _ ^^^ window m key n ^^^ hashBits m key g n
      rw [BitVec.xor_assoc, BitVec.xor_comm (hashBits m key g n), ← BitVec.xor_assoc]
    · change _ ^^^ _ = _ ^^^ window m key n ^^^ (_ ^^^ window m key n)
      rw [BitVec.xor_comm (hashBits m key g n) (window m key n), BitVec.xor_assoc,
        ← BitVec.xor_assoc (window m key n), BitVec.xor_self, BitVec.zero_xor]

theorem hash_xor {a b : List (BitVec 8)} (h : a.length = b.length) :
    hash m key (List.zipWith (· ^^^ ·) a b) = hash m key a ^^^ hash m key b := by
  have hlength : (List.zipWith (· ^^^ ·) a b).length = a.length := by
    rw [List.length_zipWith, ← h, Nat.min_self]
  rw [hash, hash, hash, hlength, ← h, ← hashBits_xor]
  apply hashBits_congr
  intro i hi
  have hlt : i / 8 < a.length := by omega
  have hlt' : i / 8 < b.length := by omega
  have hlt'' : i / 8 < (List.zipWith (· ^^^ ·) a b).length := by omega
  rw [bitAt, bitAt, bitAt, List.getD_eq_getElem _ _ hlt, List.getD_eq_getElem _ _ hlt',
    List.getD_eq_getElem _ _ hlt'', List.getElem_zipWith, BitVec.getMsbD_xor]

end Toeplitz
