import Mathlib.Algebra.Group.Nat.Defs
import Mathlib.Data.List.Basic

/-! # Tournaments

Selection circuits compare their inputs in pairs, then the winners in pairs, and so
on: a tournament over `2 ^ levels` entrants, in which the upper entrant of a pair
wins if it beats the lower one.  A priority encoder and a maximum finder differ only
in what beating means.

`play_place_lt` and `play_value` say that a tournament names one of its entrants.
If beating is transitive and so is not beating, the winner is the one that beats
everyone below it and is beaten by no one above it (`beats_of_lt`, `not_beats_of_gt`).
-/
namespace Tournament
variable {α : Type}

/-- The winner among the entrants `base, …, base + 2 ^ levels - 1`: its value, and
its place counted from `base`. -/
def play (beats : α → α → Bool) (v : Nat → α) : Nat → Nat → α × Nat
  | 0, base => (v base, 0)
  | levels + 1, base =>
    let lo := play beats v levels base
    let hi := play beats v levels (base + 2 ^ levels)
    if beats hi.1 lo.1 then (hi.1, 2 ^ levels + hi.2) else lo

section Winner
variable (beats : α → α → Bool) (v : Nat → α)

/-- A tournament is decided in one of its halves. -/
theorem play_succ (levels base : Nat) :
    (beats (play beats v levels (base + 2 ^ levels)).1 (play beats v levels base).1 = true ∧
      play beats v (levels + 1) base =
        ((play beats v levels (base + 2 ^ levels)).1,
          2 ^ levels + (play beats v levels (base + 2 ^ levels)).2)) ∨
    (beats (play beats v levels (base + 2 ^ levels)).1 (play beats v levels base).1 = false ∧
      play beats v (levels + 1) base = play beats v levels base) := by
  simp only [play]
  cases hb : beats (play beats v levels (base + 2 ^ levels)).1 (play beats v levels base).1 with
  | true => exact .inl ⟨rfl, if_pos rfl⟩
  | false => exact .inr ⟨rfl, if_neg Bool.false_ne_true⟩

theorem play_place_lt (levels base : Nat) : (play beats v levels base).2 < 2 ^ levels := by
  induction levels generalizing base with
  | zero => exact Nat.one_pos
  | succ levels ih =>
    rcases play_succ beats v levels base with ⟨-, h⟩ | ⟨-, h⟩
    · have := ih (base + 2 ^ levels)
      rw [h]
      omega
    · have := ih base
      rw [h]
      omega

theorem play_value (levels base : Nat) :
    (play beats v levels base).1 = v (base + (play beats v levels base).2) := by
  induction levels generalizing base with
  | zero => rfl
  | succ levels ih =>
    rcases play_succ beats v levels base with ⟨-, h⟩ | ⟨-, h⟩
    · rw [h]
      rw [ih, ← Nat.add_assoc]
    · rw [h, ih]

end Winner

/-- What a comparison needs for its tournaments to have a meaning. -/
structure Consistent (beats : α → α → Bool) : Prop where
  trans : ∀ a b c, beats a b = true → beats b c = true → beats a c = true
  negTrans : ∀ a b c, beats a b = false → beats b c = false → beats a c = false

variable {beats : α → α → Bool} {v : Nat → α}

/-- The winner beats those below it and is not beaten from above. -/
theorem play_wins (hb : Consistent beats) (levels base j : Nat) (hj : j < 2 ^ levels) :
    (j < (play beats v levels base).2 →
      beats (play beats v levels base).1 (v (base + j)) = true) ∧
    ((play beats v levels base).2 < j →
      beats (v (base + j)) (play beats v levels base).1 = false) := by
  induction levels generalizing base j with
  | zero =>
    simp only [play]
    omega
  | succ levels ih =>
    have hlo := play_place_lt beats v levels base
    have hself := play_value beats v levels base
    have hself' := play_value beats v levels (base + 2 ^ levels)
    rcases Nat.lt_or_ge j (2 ^ levels) with hlow | hhigh
    · obtain ⟨hbelow, habove⟩ := ih base j hlow
      rcases play_succ beats v levels base with ⟨hwin, h⟩ | ⟨hwin, h⟩
      · -- the winner is in the upper half: it beats the lower winner, hence `j`
        rw [h]
        refine ⟨fun _ => ?_, fun hgt => absurd hgt (by simp only; omega)⟩
        rcases Nat.lt_trichotomy j (play beats v levels base).2 with hlt | heq | hgt
        · exact hb.trans _ _ _ hwin (hbelow hlt)
        · rw [heq, ← hself]
          exact hwin
        · by_contra hn
          rw [Bool.not_eq_true] at hn
          rw [hb.negTrans _ _ _ hn (habove hgt)] at hwin
          exact Bool.false_ne_true hwin
      · rw [h]
        exact ⟨hbelow, habove⟩
    · obtain ⟨i, rfl⟩ := Nat.exists_eq_add_of_le hhigh
      obtain ⟨hbelow, habove⟩ := ih (base + 2 ^ levels) i (by rw [Nat.pow_succ] at hj; omega)
      rw [Nat.add_assoc] at hbelow habove
      rcases play_succ beats v levels base with ⟨hwin, h⟩ | ⟨hwin, h⟩
      · rw [h]
        exact ⟨fun hlt => hbelow (by simp only at hlt; omega),
          fun hgt => habove (by simp only at hgt; omega)⟩
      · -- the winner is in the lower half, and the upper winner does not beat it
        rw [h]
        refine ⟨fun hlt => absurd hlt (by omega), fun _ => ?_⟩
        rcases Nat.lt_trichotomy i (play beats v levels (base + 2 ^ levels)).2 with hlt | heq | hgt
        · by_contra hn
          rw [Bool.not_eq_false] at hn
          rw [hb.trans _ _ _ (hbelow hlt) hn] at hwin
          exact Bool.false_ne_true hwin.symm
        · rw [heq, ← Nat.add_assoc, ← hself']
          exact hwin
        · exact hb.negTrans _ _ _ (habove hgt) hwin

theorem beats_of_lt (hb : Consistent beats) {levels base j : Nat}
    (hj : j < (play beats v levels base).2) :
    beats (play beats v levels base).1 (v (base + j)) = true :=
  (play_wins hb levels base j (Nat.lt_trans hj (play_place_lt beats v levels base))).1 hj

theorem not_beats_of_gt (hb : Consistent beats) {levels base j : Nat}
    (hj : j < 2 ^ levels) (hgt : (play beats v levels base).2 < j) :
    beats (v (base + j)) (play beats v levels base).1 = false :=
  (play_wins hb levels base j hj).2 hgt

end Tournament
