import Mathlib.Data.Nat.Basic

/-! # Taking turns

Ports stand at the places `0, …, n - 1` of a circle, and a pointer `t ≤ n` stands before one
of them.  Of the ports that ask, the first one from the pointer on has its turn
(`Turn`), and the pointer moves behind it.

A port that keeps asking comes nearer to the pointer with every turn of another one
(`Turn.ahead_lt`); since it was less than `n` places away, fewer than `n` others come
before it.
-/
namespace RoundRobin
variable {ι : Type} {n t : Nat}

/-- How many places the pointer has to pass to come to the place `k`. -/
def ahead (n t k : Nat) : Nat := if t ≤ k then k - t else k + n - t

theorem ahead_lt {k : Nat} (ht : t ≤ n) (hk : k < n) : ahead n t k < n := by
  unfold ahead
  split <;> omega

/-- The pointer moves behind a place that comes first. -/
theorem ahead_succ_lt {g k : Nat} (ht : t ≤ n) (hg : g < n) (hk : k < n) (hne : g ≠ k)
    (hle : ahead n t g ≤ ahead n t k) : ahead n (g + 1) k < ahead n t k := by
  unfold ahead at hle ⊢
  by_cases htg : t ≤ g
  · rw [if_pos htg] at hle
    by_cases htk : t ≤ k
    · rw [if_pos htk] at hle ⊢
      rw [if_pos (by omega)]
      omega
    · rw [if_neg htk] at hle ⊢
      rw [if_neg (by omega)]
      omega
  · rw [if_neg htg] at hle
    by_cases htk : t ≤ k
    · -- a port behind the pointer comes before one in front of it
      rw [if_pos htk] at hle
      omega
    · rw [if_neg htk] at hle ⊢
      rw [if_pos (by omega)]
      omega

/-- Of the ports that ask, `g` comes first from the pointer on. -/
structure Turn (n : Nat) (place : ι → Nat) (t : Nat) (request : ι → Bool) (g : ι) : Prop where
  asks : request g = true
  first : ∀ i, request i = true → ahead n t (place g) ≤ ahead n t (place i)

variable {place : ι → Nat} {request : ι → Bool} {g i : ι}

theorem Turn.ahead_lt (h : Turn n place t request g) (ht : t ≤ n) (hg : place g < n)
    (hk : place i < n) (hi : request i = true) (hne : place g ≠ place i) :
    ahead n (place g + 1) (place i) < ahead n t (place i) :=
  ahead_succ_lt ht hg hk hne (h.first i hi)

/-- If a port behind the pointer asks, the nearest one of those has its turn. -/
theorem turn_of_front (hg : request g = true) (hlt : place g < n) (ht : t ≤ place g)
    (hmin : ∀ i, request i = true → t ≤ place i → place g ≤ place i) :
    Turn n place t request g := by
  refine ⟨hg, fun i hi => ?_⟩
  unfold ahead
  rw [if_pos ht]
  split
  · have := hmin i hi ‹_›
    omega
  · omega

/-- If none does, the first one of all. -/
theorem turn_of_wrap (hg : request g = true) (ht : ∀ i, request i = true → place i < t)
    (hmin : ∀ i, request i = true → place g ≤ place i) : Turn n place t request g := by
  refine ⟨hg, fun i hi => ?_⟩
  have hlt := ht i hi
  have hle := hmin i hi
  unfold ahead
  rw [if_neg (by omega), if_neg (by omega)]
  omega

end RoundRobin
